import Demand.Snippet.Render
import Mathlib.Data.List.Basic

/-!
# Where diagnostics are drawn

A location has a place if its file is known and its span is not empty (`Location.KnownIn`), and it
can be shown if its span also lies in the text (`Location.ShownIn`). Diagnostics whose locations
have places become labels, one for each and in order (`Report.places_ofList`), and only notes
without a location become footers (`Report.footer_of_known`). Each label is put in the text of its
file (`Report.exists_slice`), and where all can be shown every report is drawn
(`exists_texts_of_shown`).
-/

namespace Demand

/-- The location is in one of the files, and is not empty. -/
def Location.KnownIn (files : List SourceFile) (l : Location) : Prop :=
  ∃ f ∈ files, l.file = f.id ∧ 0 < l.span.length

/-- The location is in one of the files, and has characters of its text. -/
def Location.ShownIn (files : List SourceFile) (l : Location) : Prop :=
  ∃ f ∈ files, l.file = f.id ∧ 0 < l.span.length ∧ l.span.stop ≤ f.content.length

theorem Location.ShownIn.known {files : List SourceFile} {l : Location} (h : l.ShownIn files) :
    l.KnownIn files := by
  obtain ⟨f, hf, hid, hlength, -⟩ := h
  exact ⟨f, hf, hid, hlength⟩

namespace Diagnostic

/-- The diagnostic is a note without a location, or its location is one of these. -/
def Located (P : Location → Prop) (d : Diagnostic) : Prop :=
  d.severity = .note ∧ d.location = none ∨ ∃ l, d.location = some l ∧ P l

abbrev KnownIn (files : List SourceFile) : Diagnostic → Prop :=
  Located (Location.KnownIn files)

abbrev ShownIn (files : List SourceFile) : Diagnostic → Prop :=
  Located (Location.ShownIn files)

variable {P : Location → Prop} {d : Diagnostic}

theorem Located.location (h : d.Located P) : ∀ l, d.location = some l → P l := by
  intro l hl
  rcases h with ⟨-, hnone⟩ | ⟨l', hl', hshown⟩
  · rw [hnone] at hl
    cases hl
  · rw [hl'] at hl
    cases hl
    exact hshown

theorem Located.known {files : List SourceFile} (h : d.ShownIn files) : d.KnownIn files := by
  rcases h with hnote | ⟨l, hl, hshown⟩
  · exact .inl hnote
  · exact .inr ⟨l, hl, hshown.known⟩

end Diagnostic

/-! ## Groups -/

namespace DiagnosticGroup

/-- No diagnostic is lost: the leading notes and the groups have them in order. -/
theorem flatMap_toList_split (ds : List Diagnostic) :
    (split ds).1 ++ (split ds).2.flatMap toList = ds := by
  induction ds with
  | nil => rfl
  | cons d ds ih =>
    rw [split]
    by_cases h : d.severity = .note
    · simp only [h, if_true, List.cons_append, ih]
    · simp only [h, if_false, List.nil_append, List.flatMap_cons, toList, List.cons_append, ih]

theorem severity_of_mem_split (ds : List Diagnostic) :
    (∀ d ∈ (split ds).1, d.severity = .note) ∧
      ∀ g ∈ (split ds).2, ∀ d ∈ g.notes, d.severity = .note := by
  induction ds with
  | nil => simp [split]
  | cons d ds ih =>
    rw [split]
    by_cases h : d.severity = .note
    · simp only [h, if_true]
      exact ⟨List.forall_mem_cons.2 ⟨h, ih.1⟩, ih.2⟩
    · simp only [h, if_false]
      exact ⟨by simp, List.forall_mem_cons.2 ih⟩

theorem flatMap_toList_ofList (ds : List Diagnostic) : (ofList ds).flatMap toList = ds := by
  have hsplit := flatMap_toList_split ds
  unfold ofList
  split
  next h =>
    rw [h] at hsplit
    exact hsplit
  next h =>
    rw [h] at hsplit
    exact hsplit

/-- All of a group but its head are notes. -/
theorem severity_of_mem_notes {ds : List Diagnostic} {g : DiagnosticGroup} (hg : g ∈ ofList ds) :
    ∀ d ∈ g.notes, d.severity = .note := by
  obtain ⟨hnotes, hgroups⟩ := severity_of_mem_split ds
  unfold ofList at hg
  split at hg
  next h =>
    rw [h] at hgroups
    exact hgroups g hg
  next h =>
    rw [h] at hnotes hgroups
    rcases List.mem_cons.1 hg with rfl | hg
    · exact fun d hd => hnotes d (List.mem_cons_of_mem _ hd)
    · exact hgroups g hg

theorem mem_of_mem_toList {ds : List Diagnostic} {g : DiagnosticGroup} (hg : g ∈ ofList ds)
    {d : Diagnostic} (hd : d ∈ g.toList) : d ∈ ds := by
  rw [← flatMap_toList_ofList ds]
  exact List.mem_flatMap_of_mem hg hd

end DiagnosticGroup

/-! ## Labels and footers -/

/-- Where a diagnostic is and how bad it is. -/
def Diagnostic.place? (d : Diagnostic) : Option (Severity × Location) :=
  d.location.map fun l => (d.severity, l)

/-- Where a label is and how bad it is. -/
def Label.place (l : Label) : Severity × Location :=
  (l.severity, l.location)

/-- A report says all of the diagnostics: its labels are their locations, in order, and its footers
are notes without one. -/
structure Report.Says (ds : List Diagnostic) (r : Report) : Prop where
  places : r.labels.map Label.place = ds.filterMap Diagnostic.place?
  footers : ∀ f ∈ r.footers, ∃ d ∈ ds, d.location = none ∧ f = ⟨.note, d.message⟩

section Shown

-- The files have numbers of their own, so that the number of a location tells its file.
variable {files : List SourceFile} (hfiles : ∀ f ∈ files, ∀ g ∈ files, f.id = g.id → f = g)

include hfiles

namespace Report

theorem findFile_of_mem {f : SourceFile} (hf : f ∈ files) : findFile files f.id = some f := by
  unfold findFile
  cases h : files.find? fun g => g.id = f.id with
  | none => exact absurd (List.find?_eq_none.1 h f hf) (by simp)
  | some g =>
    have hid : g.id = f.id := by simpa using List.find?_some h
    rw [hfiles g (List.mem_of_find?_eq_some h) f hf hid]

theorem addLabel_of_known {l : Label} (h : l.location.KnownIn files) (r : Report) :
    r.addLabel files l = { r with labels := r.labels ++ [l] } := by
  obtain ⟨f, hf, hid, hlength⟩ := h
  have hspan : l.location.span.isEmpty = false := by
    simp only [Span.isEmpty, beq_eq_false_iff_ne]
    omega
  rw [addLabel, hid, findFile_of_mem hfiles hf, hspan]
  rfl

theorem says_ofHead {d : Diagnostic} (hd : d.KnownIn files) : (ofHead files d).Says [d] := by
  unfold ofHead
  cases hl : d.location with
  | none => exact ⟨by simp [Diagnostic.place?, hl], by simp⟩
  | some l =>
    simp only [addLabel_of_known hfiles (l := ⟨d.severity, l, none⟩) (hd.location l hl)]
    exact ⟨by simp [Diagnostic.place?, Label.place, hl], by simp⟩

theorem Says.addNote {ds : List Diagnostic} {r : Report} (h : r.Says ds) {d : Diagnostic}
    (hnote : d.severity = .note) (hd : d.KnownIn files) : (r.addNote files d).Says (ds ++ [d]) := by
  unfold Report.addNote
  cases hl : d.location with
  | none =>
    refine ⟨by simp [h.places, Diagnostic.place?, hl], fun f hf => ?_⟩
    rcases List.mem_append.1 hf with hf | hf
    · obtain ⟨d', hd', hf⟩ := h.footers f hf
      exact ⟨d', List.mem_append_left _ hd', hf⟩
    · exact ⟨d, by simp, hl, List.mem_singleton.1 hf⟩
  | some l =>
    simp only [addLabel_of_known hfiles (l := ⟨.note, l, some d.message⟩) (hd.location l hl)]
    refine ⟨by simp [h.places, Diagnostic.place?, Label.place, hl, hnote], fun f hf => ?_⟩
    obtain ⟨d', hd', hf⟩ := h.footers f hf
    exact ⟨d', List.mem_append_left _ hd', hf⟩

theorem Says.foldl_addNote {ds notes : List Diagnostic} {r : Report} (h : r.Says ds)
    (hnotes : ∀ d ∈ notes, d.severity = .note ∧ d.KnownIn files) :
    (notes.foldl (Report.addNote files) r).Says (ds ++ notes) := by
  induction notes generalizing ds r with
  | nil => simpa using h
  | cons d notes ih =>
    obtain ⟨⟨hnote, hd⟩, hrest⟩ := List.forall_mem_cons.1 hnotes
    simpa using ih (h.addNote hfiles hnote hd) hrest

variable {ds : List Diagnostic} (hds : ∀ d ∈ ds, d.KnownIn files)

include hds

/-- The report about a group says what the group does. -/
theorem says_ofGroup {g : DiagnosticGroup} (hg : g ∈ DiagnosticGroup.ofList ds) :
    (ofGroup files g).Says g.toList := by
  have hknown : ∀ d ∈ g.toList, d.KnownIn files := fun d hd =>
    hds d (DiagnosticGroup.mem_of_mem_toList hg hd)
  obtain ⟨hhead, hnotes⟩ := List.forall_mem_cons.1 hknown
  exact (says_ofHead hfiles hhead).foldl_addNote hfiles fun d hd =>
    ⟨DiagnosticGroup.severity_of_mem_notes hg d hd, hnotes d hd⟩

/-- Every location becomes a label, with the severity of its diagnostic and in order. -/
theorem places_ofList :
    ((ofList files ds).flatMap fun r => r.labels.map Label.place) =
      ds.filterMap Diagnostic.place? := by
  have hgroups : ((DiagnosticGroup.ofList ds).flatMap fun g =>
      (ofGroup files g).labels.map Label.place) =
      (DiagnosticGroup.ofList ds).flatMap fun g => g.toList.filterMap Diagnostic.place? :=
    List.flatMap_congr fun g hg => (says_ofGroup hfiles hds hg).places
  rw [ofList, List.flatMap_map, hgroups, ← List.filterMap_flatMap,
    DiagnosticGroup.flatMap_toList_ofList]

/-- Nothing but a note without a location becomes a footer. -/
theorem footer_of_known {r : Report} (hr : r ∈ ofList files ds) {f : Footer} (hf : f ∈ r.footers) :
    ∃ d ∈ ds, d.location = none ∧ f = ⟨.note, d.message⟩ := by
  obtain ⟨g, hg, rfl⟩ := List.mem_map.1 hr
  obtain ⟨d, hd, hfooter⟩ := (says_ofGroup hfiles hds hg).footers f hf
  exact ⟨d, DiagnosticGroup.mem_of_mem_toList hg hd, hfooter⟩

/-- Every label is at the location of a diagnostic. -/
theorem exists_of_mem_labels {r : Report} (hr : r ∈ ofList files ds) {l : Label}
    (hl : l ∈ r.labels) : ∃ d ∈ ds, d.location = some l.location := by
  have hplace : l.place ∈ ds.filterMap Diagnostic.place? := by
    rw [← places_ofList hfiles hds]
    exact List.mem_flatMap_of_mem hr (List.mem_map_of_mem hl)
  obtain ⟨d, hd, hplace⟩ := List.mem_filterMap.1 hplace
  obtain ⟨l', hl', heq⟩ := Option.map_eq_some_iff.1 hplace
  rw [(Prod.mk.inj heq).2] at hl'
  exact ⟨d, hd, hl'⟩

/-! ## Drawing -/

/-- Every label is put in the text of its file, under the name of the file and with what is said
there. -/
theorem exists_slice {r : Report} (hr : r ∈ ofList files ds) {l : Label} (hl : l ∈ r.labels) :
    ∃ f ∈ files, f.id = l.location.file ∧ ∃ sl ∈ (r.snippet files).slices,
      sl.content = f.content.toList ∧ sl.origin = f.name ∧
      ⟨l.location.span.start, l.location.span.stop, l.severity, l.text.getD ""⟩ ∈ sl.labels := by
  obtain ⟨d, hd, hlocation⟩ := exists_of_mem_labels hfiles hds hr hl
  obtain ⟨f, hf, hid, -⟩ := (hds d hd).location _ hlocation
  refine ⟨f, hf, hid.symm, r.slice f, List.mem_map_of_mem (List.mem_filterMap.2 ⟨f.id, ?_, ?_⟩),
    rfl, rfl, ?_⟩
  · rw [labelledFiles, FirstSeen.mem_ofList, ← hid]
    exact List.mem_map_of_mem hl
  · exact findFile_of_mem hfiles hf
  · exact List.mem_map.2 ⟨l, List.mem_filter.2 ⟨hl, decide_eq_true hid⟩, rfl⟩

omit hds

/-- No label reaches beyond the end of its text. -/
theorem rangeErrors_eq_nil (hds : ∀ d ∈ ds, d.ShownIn files) {r : Report}
    (hr : r ∈ ofList files ds) {sl : Snippet.Slice}
    (hsl : sl ∈ (r.snippet files).slices) : sl.rangeErrors = [] := by
  obtain ⟨f, hf, rfl⟩ := List.mem_map.1 hsl
  obtain ⟨id, -, hfind⟩ := List.mem_filterMap.1 hf
  have hmem : f ∈ files := List.mem_of_find?_eq_some hfind
  refine List.map_eq_nil_iff.2 (List.filter_eq_nil_iff.2 fun drawn hdrawn => ?_)
  obtain ⟨l, hl, rfl⟩ := List.mem_map.1 hdrawn
  obtain ⟨hl, hid⟩ := List.mem_filter.1 hl
  obtain ⟨d, hd, hlocation⟩ := exists_of_mem_labels hfiles (fun d hd => (hds d hd).known) hr hl
  obtain ⟨g, hg, hgid, -, hstop⟩ := (hds d hd).location _ hlocation
  obtain rfl := hfiles g hg f hmem (hgid.symm.trans (of_decide_eq_true hid))
  rw [decide_eq_true_eq, Nat.not_lt]
  exact Nat.le_trans hstop (Nat.le_of_eq String.length_toList.symm)

end Report

variable {ds : List Diagnostic} (hds : ∀ d ∈ ds, d.ShownIn files)

include hds

/-- Diagnostics that can be shown are drawn, all of them. -/
theorem exists_texts_of_shown (color : Bool) :
    ∃ texts : List String, renderDiagnostics color files ds = texts.map .ok := by
  refine ⟨(Report.ofList files ds).map fun r =>
    String.intercalate "\n" ((r.snippet files).renderLines color), ?_⟩
  rw [renderDiagnostics, List.map_map]
  refine List.map_congr_left fun r hr => ?_
  have hnone : (r.snippet files).rangeError? = none := by
    have herrors : (r.snippet files).slices.flatMap Snippet.Slice.rangeErrors = [] :=
      List.flatMap_eq_nil_iff.2 fun sl hsl => Report.rangeErrors_eq_nil hfiles hds hr hsl
    rw [Snippet.rangeError?, herrors]
    rfl
  rw [Snippet.render, hnone]
  rfl

end Shown

end Demand
