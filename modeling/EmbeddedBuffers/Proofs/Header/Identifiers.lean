import EmbeddedBuffers.Proofs.Header.Legible
import EmbeddedBuffers.Proofs.Source.Repetitions
import Mathlib.Data.List.Basic

/-!
# Identifiers of a header

A header defines two constants for a buffer: the number of its elements and the array. Both are
called by its name, an underscore and the word of its kind, and the first has `Size` behind. Words
hold no underscore, so an identifier tells the name and the kind, and a name that stands once in its
namespace gives identifiers that are defined once. Main statement: `definitions_distinct`.
-/

namespace EmbeddedBuffers

namespace Kind

theorem mem_all (k : Kind) : k ∈ all := by
  cases k <;> decide

theorem underscore_not_mem_word (k : Kind) : '_' ∉ k.word.toList := by
  cases k <;> decide

theorem word_inj {k k' : Kind} (h : k.word = k'.word) : k = k' := by
  have hall : ∀ k ∈ all, ∀ k' ∈ all, k.word = k'.word → k = k' := by decide
  exact hall k k.mem_all k' k'.mem_all h

/-- No kind is called like the size of another. -/
theorem word_ne_append_size (k k' : Kind) : k.word ≠ k'.word ++ "Size" := by
  have hall : ∀ k ∈ all, ∀ k' ∈ all, k.word ≠ k'.word ++ "Size" := by decide
  exact hall k k.mem_all k' k'.mem_all

end Kind

/-! ## Identifiers of a declaration -/

/-- A text is cut at its last underscore. -/
theorem eq_of_append_underscore {a a' b b' : List Char} (hb : '_' ∉ b) (hb' : '_' ∉ b')
    (h : a ++ '_' :: b = a' ++ '_' :: b') : a = a' ∧ b = b' := by
  have hreverse := congrArg List.reverse h
  simp only [List.reverse_append, List.reverse_cons, List.append_assoc, List.singleton_append]
    at hreverse
  obtain ⟨hback, hfront⟩ := Header.eq_of_append_cons (fun hmem => hb (List.mem_reverse.1 hmem))
    (fun hmem => hb' (List.mem_reverse.1 hmem)) hreverse
  exact ⟨List.reverse_inj.1 hfront, List.reverse_inj.1 hback⟩

namespace Declaration

variable {d d' : Declaration}

theorem toList_symbol (d : Declaration) :
    d.symbol.toList = d.name.toList ++ '_' :: d.kind.word.toList := by
  show (d.name ++ "_" ++ d.kind.word).toList = _
  rw [String.toList_append, String.toList_append, List.append_assoc]
  rfl

theorem toList_sizeSymbol (d : Declaration) :
    d.sizeSymbol.toList = d.name.toList ++ '_' :: (d.kind.word ++ "Size").toList := by
  rw [sizeSymbol, String.toList_append, toList_symbol, String.toList_append, List.append_assoc,
    List.cons_append]

/-- The symbol of an array tells the name and the kind. -/
theorem symbol_inj (h : d.symbol = d'.symbol) : d.name = d'.name ∧ d.kind = d'.kind := by
  have htext := congrArg String.toList h
  rw [toList_symbol, toList_symbol] at htext
  obtain ⟨hname, hword⟩ := eq_of_append_underscore d.kind.underscore_not_mem_word
    d'.kind.underscore_not_mem_word htext
  exact ⟨String.toList_inj.1 hname, Kind.word_inj (String.toList_inj.1 hword)⟩

theorem sizeSymbol_inj (h : d.sizeSymbol = d'.sizeSymbol) : d.symbol = d'.symbol := by
  have htext := congrArg String.toList h
  rw [sizeSymbol, sizeSymbol, String.toList_append, String.toList_append] at htext
  exact String.toList_inj.1 (List.append_cancel_right htext)

/-- No array is called like a size. -/
theorem symbol_ne_sizeSymbol (d d' : Declaration) : d.symbol ≠ d'.sizeSymbol := by
  intro h
  have hsize : '_' ∉ (d'.kind.word ++ "Size").toList := by
    rw [String.toList_append, List.mem_append, not_or]
    exact ⟨d'.kind.underscore_not_mem_word, by decide⟩
  have htext := congrArg String.toList h
  rw [toList_symbol, toList_sizeSymbol] at htext
  obtain ⟨-, hword⟩ := eq_of_append_underscore d.kind.underscore_not_mem_word hsize htext
  exact Kind.word_ne_append_size _ _ (String.toList_inj.1 hword)

/-- What is defined for a declaration, each identifier with its namespaces. -/
def identifiers (d : Declaration) : List (List String × String) :=
  [(d.scope, d.sizeSymbol), (d.scope, d.symbol)]

theorem scope_of_mem_identifiers {i : List String × String} (h : i ∈ d.identifiers) :
    i.1 = d.scope := by
  simp only [identifiers, List.mem_cons, List.not_mem_nil, or_false] at h
  rcases h with rfl | rfl <;> rfl

theorem key_eq_of_mem_identifiers {i : List String × String} (h : i ∈ d.identifiers)
    (h' : i ∈ d'.identifiers) : d.key = d'.key := by
  have hkey : d.scope = d'.scope → d.symbol = d'.symbol → d.key = d'.key :=
    fun hscope hsymbol => Prod.ext hscope (symbol_inj hsymbol).1
  simp only [identifiers, List.mem_cons, List.not_mem_nil, or_false] at h h'
  rcases h with rfl | rfl
  · rcases h' with heq | heq
    · exact hkey (Prod.ext_iff.1 heq).1 (sizeSymbol_inj (Prod.ext_iff.1 heq).2)
    · exact absurd (Prod.ext_iff.1 heq).2.symm (symbol_ne_sizeSymbol d' d)
  · rcases h' with heq | heq
    · exact absurd (Prod.ext_iff.1 heq).2 (symbol_ne_sizeSymbol d d')
    · exact hkey (Prod.ext_iff.1 heq).1 (Prod.ext_iff.1 heq).2

/-- **Names that differ give identifiers that differ**, over all kinds and both constants. -/
theorem nodup_identifiers {ds : List Declaration} (h : (ds.map key).Nodup) :
    (ds.flatMap identifiers).Nodup := by
  refine List.pairwise_flatMap.2 ⟨fun d _ => ?_, ?_⟩
  · refine List.pairwise_pair.2 fun heq => ?_
    exact symbol_ne_sizeSymbol d d (Prod.ext_iff.1 heq).2.symm
  · refine (List.pairwise_map.1 h).imp fun hne i hi i' hi' heq => hne ?_
    exact key_eq_of_mem_identifiers hi (heq ▸ hi')

end Declaration

/-! ## Identifiers of a header -/

namespace Header

/-- What a header defines, in the order of its text. -/
def definitions (entries : List Entry) : List (List String × String) :=
  (groups entries).flatMap fun g =>
    g.2.flatMap fun e => [(g.1, e.declaration.sizeSymbol), (g.1, e.declaration.symbol)]

/-- What a reader of a header finds defined. -/
def Contents.definitions (c : Contents) : List (List String × String) :=
  c.groups.flatMap fun g => g.2.flatMap fun b => [(g.1, b.sizeSymbol), (g.1, b.symbol)]

theorem scope_of_mem_entriesIn {entries : List Entry} {scope : List String} {e : Entry}
    (h : e ∈ entriesIn entries scope) : e.declaration.scope = scope :=
  of_decide_eq_true (List.mem_filter.1 h).2

/-- A header defines the identifiers of its entries, namespace by namespace. -/
theorem definitions_eq (entries : List Entry) : definitions entries =
    (scopes entries).flatMap fun scope =>
      (entriesIn entries scope).flatMap fun e => e.declaration.identifiers := by
  rw [definitions, groups_eq, List.flatMap_map]
  refine List.flatMap_congr fun scope _ => List.flatMap_congr fun e he => ?_
  rw [Declaration.identifiers, scope_of_mem_entriesIn he]

/-- A header defines nothing twice whose entries have different names in each namespace. -/
theorem nodup_definitions {entries : List Entry}
    (h : ((entries.map (·.declaration)).map Declaration.key).Nodup) :
    (definitions entries).Nodup := by
  rw [definitions_eq]
  refine List.pairwise_flatMap.2 ⟨fun scope _ => ?_, ?_⟩
  · have hsub : (entriesIn entries scope).Sublist entries := List.filter_sublist
    have hin := Declaration.nodup_identifiers
      (((hsub.map (·.declaration)).map Declaration.key).nodup h)
    rwa [List.flatMap_map] at hin
  · refine (nodup_scopes entries).imp fun {scope scope'} hne i hi i' hi' heq => hne ?_
    have hfirst : ∀ {scope i}, i ∈ ((entriesIn entries scope).flatMap fun e =>
        e.declaration.identifiers) → i.1 = scope := by
      intro scope i hi
      obtain ⟨e, he, hi⟩ := List.mem_flatMap.1 hi
      rw [← scope_of_mem_entriesIn he, Declaration.scope_of_mem_identifiers hi]
    rw [← hfirst hi, heq, hfirst hi']

/-- What a reader finds defined is what the entries define. -/
theorem exists_read?_definitions {m : Macros} {path source sourceName text : String}
    {maxValues : Nat} {fingerprint : UInt64} {entries : List Entry}
    (hentries : ∀ e ∈ entries, e.declaration ∈ (scan m path source).declarations)
    (hname : '\n' ∉ sourceName.toList)
    (hrender : render maxValues sourceName fingerprint.toNat entries = .ok text) :
    ∃ contents, Layout.read? text.toList = some contents ∧
      contents.definitions = definitions entries := by
  have hbytes : ∀ e ∈ entries, e.payload.bytes ≠ [] := by
    intro e he hempty
    have hcheck := forM_check_eq_ok.1 (render_eq_ok.1 hrender).1 e he
    rw [Entry.check, hempty] at hcheck
    cases hcheck
  have hread := Layout.read?_of_render hname fingerprint.toNat_lt
    (fun e he => ⟨spelled_of_mem_scan (hentries e he), hbytes e he⟩) hrender
  refine ⟨_, hread, ?_⟩
  rw [Contents.definitions, definitions, groups_eq, List.flatMap_map, List.flatMap_map]
  refine List.flatMap_congr fun scope _ => ?_
  rw [List.flatMap_map]
  rfl

/-- **No two definitions of a header clash.** A scan ends with a repeated name exactly when a live
declaration has the name of an earlier live one in its namespace and nothing ended the scan before,
and the problem gives the line of the earlier one; declarations that are not live have no part in
this. Where a scan gets through, the identifiers of its live declarations, arrays and sizes of all
kinds, differ in each namespace, so a header of them defines none twice, which is what a reader of
its text finds as well. -/
theorem definitions_distinct (m : Macros) (path source : String) :
    (∀ o name line, (scan m path source).stop = some (.problem (.duplicate o name line)) ↔
      ∃ before d after first,
        (unchecked m path source).declarations.filter (·.live) = before ++ d :: after ∧
        (before.map Declaration.key).Nodup ∧ first ∈ before ∧ first.key = d.key ∧
        o = .atLine d.path d.line ∧ name = d.qualifiedName ∧ line = first.line) ∧
    ((((unchecked m path source).declarations.filter (·.live)).map Declaration.key).Nodup →
      (scan m path source).visible = (unchecked m path source).visible) ∧
    ∀ ds, liveDeclarations m path source = .ok ds →
      (ds.flatMap Declaration.identifiers).Nodup ∧
      ∀ entries : List Entry, (entries.map (·.declaration)).Sublist ds →
        (definitions entries).Nodup ∧
        ∀ (maxValues : Nat) (fingerprint : UInt64) (sourceName text : String),
          '\n' ∉ sourceName.toList →
          render maxValues sourceName fingerprint.toNat entries = .ok text →
          ∃ contents, Layout.read? text.toList = some contents ∧
            contents.definitions = definitions entries ∧ contents.definitions.Nodup := by
  refine ⟨fun _ _ _ => stop_eq_duplicate_iff, visible_scan_of_nodup, fun ds hds => ?_⟩
  obtain ⟨hstop, rfl⟩ := liveDeclarations_eq_ok.1 hds
  have hnames := nodup_of_stop hstop
  refine ⟨Declaration.nodup_identifiers hnames, fun entries hsub => ?_⟩
  have hdefinitions : (definitions entries).Nodup :=
    nodup_definitions ((hsub.map Declaration.key).nodup hnames)
  refine ⟨hdefinitions, fun maxValues fingerprint sourceName text hname hrender => ?_⟩
  have hscanned : ∀ e ∈ entries, e.declaration ∈ (scan m path source).declarations :=
    fun e he => (List.mem_filter.1 (hsub.subset (List.mem_map_of_mem he))).1
  obtain ⟨contents, hread, hsame⟩ := exists_read?_definitions hscanned hname hrender
  exact ⟨contents, hread, hsame, hsame ▸ hdefinitions⟩

theorem definitions_distinct_twiceOpened : ∃ text contents,
    render 1 "in.h" 7 twiceOpenedEntries = .ok text ∧
      Layout.read? text.toList = some contents ∧
      contents.definitions = [(["a"], "A_DataSize"), (["a"], "A_Data"), (["a"], "C_DataSize"),
        (["a"], "C_Data"), ([], "B_DataSize"), ([], "B_Data")] ∧
      contents.definitions.Nodup := by
  have hlive : liveDeclarations .empty "in.h" twiceOpened =
      .ok (twiceOpenedEntries.map (·.declaration)) := by
    have hstop : (scan .empty "in.h" twiceOpened).stop = none := by decide +kernel
    have hall : ∀ d ∈ (scan .empty "in.h" twiceOpened).declarations, d.live = true := by
      decide +kernel
    refine liveDeclarations_eq_ok.2 ⟨hstop, (List.filter_eq_self.2 hall).trans ?_⟩
    rw [twiceOpenedEntries, List.map_map]
    exact (List.map_id _).symm
  have hbytes : twiceOpenedEntries.find? (·.payload.bytes.isEmpty) = none := by decide +kernel
  have hcheck : twiceOpenedEntries.forM Entry.check = .ok () := by
    rw [forM_check, hbytes]
  have hdefinitions : definitions twiceOpenedEntries = [(["a"], "A_DataSize"), (["a"], "A_Data"),
      (["a"], "C_DataSize"), (["a"], "C_Data"), ([], "B_DataSize"), ([], "B_Data")] := by
    decide +kernel
  have hrender : render 1 "in.h" (7 : UInt64).toNat twiceOpenedEntries = .ok _ :=
    render_eq_ok.2 ⟨hcheck, rfl⟩
  obtain ⟨-, hentries⟩ := (definitions_distinct .empty "in.h" twiceOpened).2.2 _ hlive
  obtain ⟨contents, hread, hsame, hnodup⟩ :=
    (hentries twiceOpenedEntries (List.Sublist.refl _)).2 1 7 "in.h" _ (by decide) hrender
  exact ⟨_, contents, hrender, hread, hsame.trans hdefinitions, hnodup⟩

end Header

end EmbeddedBuffers
