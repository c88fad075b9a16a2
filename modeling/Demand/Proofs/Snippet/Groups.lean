import Demand.Proofs.Snippet.Labels
import Mathlib.Data.List.Forall2
import Mathlib.Data.List.Induction

/-!
# Reports lose no diagnostic

There is one way to cut diagnostics into groups so that an error or a warning starts a group and a
note only starts the first (`DiagnosticGroup.cuts_iff`), and taking them one at a time cuts them so
(`Report.ofList_eq_foldl`). Each diagnostic of a group is said once by its report: the head is the
title, and what is said about a location, or by a note, is a label or a footer (`Remark`), in order
(`Report.tells_ofGroup`). A snippet puts each label below the text of its file, the files in the
order in which they were first labelled (`Report.sliced_of_known`).
-/

namespace Demand

/-! ## First seen -/

namespace FirstSeen

variable {α : Type} [DecidableEq α]

theorem ofList_concat (l : List α) (a : α) : ofList (l ++ [a]) = add (ofList l) a := by
  simp [ofList, addAll]

/-- What is seen first comes first. -/
theorem pairwise_ofList (l : List α) :
    (ofList l).Pairwise fun a b => l.idxOf a < l.idxOf b := by
  induction l using List.reverseRecOn with
  | nil => exact .nil
  | append_singleton l a ih =>
    have hold : (ofList l).Pairwise fun x y => (l ++ [a]).idxOf x < (l ++ [a]).idxOf y := by
      apply ih.imp_of_mem
      intro x y hx hy h
      rwa [List.idxOf_append_of_mem (mem_ofList.1 hx), List.idxOf_append_of_mem (mem_ofList.1 hy)]
    rw [ofList_concat, add]
    by_cases ha : a ∈ ofList l
    · rwa [if_pos ha]
    · rw [if_neg ha, List.pairwise_append]
      refine ⟨hold, List.pairwise_singleton _ a, ?_⟩
      intro x hx y hy
      obtain rfl := List.mem_singleton.1 hy
      have hlt : l.idxOf x < l.length := List.idxOf_lt_length_of_mem (mem_ofList.1 hx)
      rw [List.idxOf_append_of_mem (mem_ofList.1 hx),
        List.idxOf_append_of_notMem fun h => ha (mem_ofList.2 h)]
      omega

end FirstSeen

/-! ## Cutting -/

namespace DiagnosticGroup

/-- The groups are the diagnostics, cut where an error or a warning stands; a note is where a group
starts only if nothing is before it. -/
structure Cuts (ds : List Diagnostic) (gs : List DiagnosticGroup) : Prop where
  whole : gs.flatMap toList = ds
  notes : ∀ g ∈ gs, ∀ d ∈ g.notes, d.severity = .note
  heads : ∀ g ∈ gs.tail, g.head.severity ≠ .note

theorem head_of_mem_split (ds : List Diagnostic) :
    ∀ g ∈ (split ds).2, g.head.severity ≠ .note := by
  induction ds with
  | nil => simp [split]
  | cons d ds ih =>
    rw [split]
    by_cases h : d.severity = .note
    · simp only [h, if_true]
      exact ih
    · simp only [h, if_false]
      exact List.forall_mem_cons.2 ⟨h, ih⟩

theorem cuts_ofList (ds : List Diagnostic) : Cuts ds (ofList ds) where
  whole := flatMap_toList_ofList ds
  notes := fun _ hg => severity_of_mem_notes hg
  heads := by
    have hheads := head_of_mem_split ds
    unfold ofList
    split
    next h =>
      rw [h] at hheads
      exact fun g hg => hheads g (List.mem_of_mem_tail hg)
    next h =>
      rw [h] at hheads
      exact hheads

theorem split_notes_append {notes ds : List Diagnostic} (h : ∀ d ∈ notes, d.severity = .note) :
    split (notes ++ ds) = (notes ++ (split ds).1, (split ds).2) := by
  induction notes with
  | nil => rfl
  | cons d notes ih =>
    obtain ⟨hd, hnotes⟩ := List.forall_mem_cons.1 h
    rw [List.cons_append, split, ih hnotes]
    simp [hd]

/-- Groups that are put together are cut apart again. -/
theorem split_flatMap {gs : List DiagnosticGroup}
    (hnotes : ∀ g ∈ gs, ∀ d ∈ g.notes, d.severity = .note)
    (hheads : ∀ g ∈ gs, g.head.severity ≠ .note) : split (gs.flatMap toList) = ([], gs) := by
  induction gs with
  | nil => rfl
  | cons g gs ih =>
    obtain ⟨hg, hrest⟩ := List.forall_mem_cons.1 hnotes
    obtain ⟨hhead, hheads⟩ := List.forall_mem_cons.1 hheads
    rw [List.flatMap_cons, toList, List.cons_append, split, split_notes_append hg, ih hrest hheads]
    simp [hhead]

theorem cuts_iff {ds : List Diagnostic} {gs : List DiagnosticGroup} :
    Cuts ds gs ↔ gs = ofList ds := by
  constructor
  · rintro ⟨rfl, hnotes, hheads⟩
    cases gs with
    | nil => rfl
    | cons g gs =>
      obtain ⟨hg, hrest⟩ := List.forall_mem_cons.1 hnotes
      have hsplit : split (gs.flatMap toList) = ([], gs) := split_flatMap hrest hheads
      by_cases hhead : g.head.severity = .note
      · -- all of the first group are notes that come before anything else
        have hall : ∀ d ∈ g.toList, d.severity = .note := List.forall_mem_cons.2 ⟨hhead, hg⟩
        rw [ofList, List.flatMap_cons, split_notes_append hall, hsplit]
        simp [toList]
      · rw [ofList, split_flatMap hnotes (List.forall_mem_cons.2 ⟨hhead, hheads⟩)]
  · rintro rfl
    exact cuts_ofList ds

theorem mem_tail_concat {gs : List DiagnosticGroup} {g h : DiagnosticGroup} :
    h ∈ (gs ++ [g]).tail ↔ h ∈ gs.tail ∨ gs ≠ [] ∧ h = g := by
  cases gs <;> simp

/-- One more note goes to the last group. -/
theorem ofList_concat_note {ds : List Diagnostic} {gs : List DiagnosticGroup} {g : DiagnosticGroup}
    (h : ofList ds = gs ++ [g]) {d : Diagnostic} (hd : d.severity = .note) :
    ofList (ds ++ [d]) = gs ++ [⟨g.head, g.notes ++ [d]⟩] := by
  obtain ⟨hwhole, hnotes, hheads⟩ := cuts_iff.2 h.symm
  symm
  refine cuts_iff.1 ⟨?_, ?_, ?_⟩
  · rw [← hwhole]
    simp [toList]
  · intro g' hg'
    rcases List.mem_append.1 hg' with hg' | hg'
    · exact hnotes g' (List.mem_append_left _ hg')
    · obtain rfl := List.mem_singleton.1 hg'
      intro d' hd'
      rcases List.mem_append.1 hd' with hd' | hd'
      · exact hnotes g (by simp) d' hd'
      · rwa [List.mem_singleton.1 hd']
  · intro g' hg'
    rcases mem_tail_concat.1 hg' with hg' | ⟨hne, rfl⟩
    · exact hheads g' (mem_tail_concat.2 (.inl hg'))
    · exact hheads g (mem_tail_concat.2 (.inr ⟨hne, rfl⟩))

/-- What is not a note, or comes before anything else, starts a group. -/
theorem ofList_concat_head {ds : List Diagnostic} {d : Diagnostic}
    (hd : d.severity = .note → ds = []) : ofList (ds ++ [d]) = ofList ds ++ [⟨d, []⟩] := by
  obtain ⟨hwhole, hnotes, hheads⟩ := cuts_ofList ds
  symm
  refine cuts_iff.1 ⟨?_, ?_, ?_⟩
  · rw [List.flatMap_append, hwhole]
    rfl
  · intro g hg
    rcases List.mem_append.1 hg with hg | hg
    · exact hnotes g hg
    · obtain rfl := List.mem_singleton.1 hg
      simp
  · intro g hg
    rcases mem_tail_concat.1 hg with hg | ⟨hne, rfl⟩
    · exact hheads g hg
    · intro hnote
      rw [hd hnote] at hne
      exact hne rfl

end DiagnosticGroup

namespace Report

variable (files : List SourceFile)

/-- Takes one more diagnostic: a note goes to the last report, if there is one. -/
def extend (rs : List Report) (d : Diagnostic) : List Report :=
  match d.severity, rs.getLast? with
  | .note, some r => rs.dropLast ++ [r.addNote files d]
  | _, _ => rs ++ [ofHead files d]

theorem ofList_concat (ds : List Diagnostic) (d : Diagnostic) :
    ofList files (ds ++ [d]) = extend files (ofList files ds) d := by
  by_cases hd : d.severity = .note
  · cases hlast : (DiagnosticGroup.ofList ds).getLast? with
    | none =>
      have hnil := List.getLast?_eq_none_iff.1 hlast
      have hds : ds = [] := by
        rw [← DiagnosticGroup.flatMap_toList_ofList ds, hnil]
        rfl
      subst hds
      simp [ofList, DiagnosticGroup.ofList, DiagnosticGroup.split, extend, hd, ofGroup]
    | some g =>
      obtain ⟨gs, hgs⟩ := List.getLast?_eq_some_iff.1 hlast
      simp [ofList, DiagnosticGroup.ofList_concat_note hgs hd, hgs, extend, hd, ofGroup]
  · rw [ofList, DiagnosticGroup.ofList_concat_head (fun h => absurd h hd), List.map_append]
    cases hs : d.severity with
    | note => exact absurd hs hd
    | error => simp [extend, hs, ofList, ofGroup]
    | warning => simp [extend, hs, ofList, ofGroup]

/-- The reports are those that come of taking the diagnostics one at a time. -/
theorem ofList_eq_foldl (ds : List Diagnostic) : ofList files ds = ds.foldl (extend files) [] := by
  induction ds using List.reverseRecOn with
  | nil => rfl
  | append_singleton ds d ih => rw [ofList_concat, ih, List.foldl_append]; rfl

end Report

/-! ## What a report says -/

/-- Whether something can be said below the text at a location: it has a length, and its file is one
of the files. -/
def Location.isPlaced (files : List SourceFile) (l : Location) : Bool :=
  0 < l.span.length && files.any fun f => f.id = l.file

/-- A part of a report. -/
inductive Remark where
  | label (l : Label)
  | footer (f : Footer)

namespace Remark

def label? : Remark → Option Label
  | label l => some l
  | footer _ => none

def footer? : Remark → Option Footer
  | label _ => none
  | footer f => some f

variable (files : List SourceFile)

/-- What a footer calls a file: by its name, that of the first if several have the number, or by the
number if no file has it. -/
def calledBy (id : FileId) : String :=
  ((files.filter fun f => f.id = id).map fun f => f.name).headD s!"file#{id.index}"

/-- What is said about a location: there, or in a footer that names the file. -/
def about (l : Label) : Remark :=
  if l.location.isPlaced files then label l
  else
    let place := calledBy files l.location.file
    footer ⟨l.severity, l.text.elim s!"in {place}" fun t => s!"{t} (in {place})"⟩

/-- A head is the title of its report, so that only its location is left to say. -/
def ofHead? (d : Diagnostic) : Option Remark :=
  d.location.map fun l => about files ⟨d.severity, l, none⟩

def ofNote (d : Diagnostic) : Remark :=
  d.location.elim (footer ⟨.note, d.message⟩) fun l => about files ⟨.note, l, some d.message⟩

end Remark

/-- What there is to say about a group below its title, in order. -/
def DiagnosticGroup.remarks (files : List SourceFile) (g : DiagnosticGroup) : List Remark :=
  (Remark.ofHead? files g.head).toList ++ g.notes.map (Remark.ofNote files)

namespace Report

variable {files : List SourceFile}

/-- The report has the severity and the title of the head of the group, and each remark once. -/
structure Tells (d : Diagnostic) (remarks : List Remark) (r : Report) : Prop where
  severity : r.severity = d.severity
  title : r.title = d.message
  labels : r.labels = remarks.filterMap Remark.label?
  footers : r.footers = remarks.filterMap Remark.footer?

theorem isNone_findFile (id : FileId) :
    (findFile files id).isNone = !files.any fun f => f.id = id := by
  unfold findFile
  rw [← List.isSome_find?]
  cases files.find? fun f => f.id = id <;> rfl

/-- Files are found by their numbers, the first that has one. -/
theorem findFile_eq_head? (id : FileId) :
    findFile files id = (files.filter fun f => f.id = id).head? := by
  rw [findFile, List.head?_filter]

theorem origin_eq_calledBy (id : FileId) : origin files id = Remark.calledBy files id := by
  unfold origin Remark.calledBy
  rw [findFile_eq_head?]
  cases files.filter fun f => f.id = id with
  | nil => rfl
  | cons f fs => rfl

variable {d : Diagnostic} {remarks : List Remark} {r : Report}

theorem Tells.addLabel (h : r.Tells d remarks) (l : Label) :
    (r.addLabel files l).Tells d (remarks ++ [Remark.about files l]) := by
  obtain ⟨hseverity, htitle, hlabels, hfooters⟩ := h
  have hshown : (l.location.span.isEmpty || (findFile files l.location.file).isNone) =
      !l.location.isPlaced files := by
    rw [isNone_findFile, Location.isPlaced, Span.isEmpty]
    cases l.location.span.length <;> simp
  unfold Report.addLabel Remark.about
  rw [hshown, origin_eq_calledBy]
  cases l.location.isPlaced files with
  | true =>
    refine ⟨hseverity, htitle, ?_, ?_⟩
    · simp [hlabels, Remark.label?]
    · simp [hfooters, Remark.footer?]
  | false =>
    refine ⟨hseverity, htitle, ?_, ?_⟩
    · simp [hlabels, Remark.label?]
    · cases l.text <;> simp [hfooters, Remark.footer?]

theorem tells_ofHead (d : Diagnostic) :
    (ofHead files d).Tells d (Remark.ofHead? files d).toList := by
  have htitle : Tells d [] { severity := d.severity, title := d.message } := ⟨rfl, rfl, rfl, rfl⟩
  unfold ofHead Remark.ofHead?
  cases d.location with
  | none => exact htitle
  | some l => exact htitle.addLabel ⟨d.severity, l, none⟩

theorem Tells.addNote (h : r.Tells d remarks) (note : Diagnostic) :
    (r.addNote files note).Tells d (remarks ++ [Remark.ofNote files note]) := by
  unfold Report.addNote Remark.ofNote
  cases note.location with
  | none =>
    obtain ⟨hseverity, htitle, hlabels, hfooters⟩ := h
    refine ⟨hseverity, htitle, ?_, ?_⟩
    · simp [hlabels, Remark.label?]
    · simp [hfooters, Remark.footer?]
  | some l => exact h.addLabel ⟨.note, l, some note.message⟩

theorem tells_ofGroup (g : DiagnosticGroup) :
    (ofGroup files g).Tells g.head (g.remarks files) := by
  unfold ofGroup DiagnosticGroup.remarks
  generalize g.notes = notes
  -- the remarks so far are those of the head and of the notes that were added
  induction notes using List.reverseRecOn with
  | nil => simpa using tells_ofHead g.head
  | append_singleton notes note ih =>
    rw [List.foldl_append, List.map_append, ← List.append_assoc]
    exact ih.addNote note

/-! ## Where labels are drawn -/

/-- What is drawn of a label. -/
def drawnLabel (l : Label) : Snippet.Label :=
  ⟨l.location.span.start, l.location.span.stop, l.severity, l.text.getD ""⟩

/-- The snippet shows the report in the texts of these files. Each has labels, they come in the
order in which they were first labelled, and together they have each label once. -/
structure Sliced (files : List SourceFile) (r : Report) (fs : List SourceFile) : Prop where
  slices : (r.snippet files).slices = fs.map fun f =>
    ⟨f.content.toList, f.name, (r.labels.filter fun l => l.location.file = f.id).map drawnLabel⟩
  labelled : ∀ sl ∈ (r.snippet files).slices, sl.labels ≠ []
  found : ∀ f ∈ fs, (files.filter fun g => g.id = f.id).head? = some f
  distinct : (fs.map fun f => f.id).Nodup
  ordered : (fs.map fun f => f.id).Pairwise fun a b =>
    (r.labels.map fun l => l.location.file).idxOf a <
      (r.labels.map fun l => l.location.file).idxOf b
  once : (fs.flatMap fun f => r.labels.filter fun l => l.location.file = f.id).Perm r.labels

theorem id_of_findFile {id : FileId} {f : SourceFile} (h : findFile files id = some f) :
    f.id = id := by
  simpa using List.find?_some h

theorem map_id_filterMap_findFile {ids : List FileId}
    (h : ∀ id ∈ ids, (findFile files id).isSome) :
    (ids.filterMap (findFile files)).map (fun f => f.id) = ids := by
  induction ids with
  | nil => rfl
  | cons id ids ih =>
    obtain ⟨hid, hrest⟩ := List.forall_mem_cons.1 h
    obtain ⟨f, hf⟩ := Option.isSome_iff_exists.1 hid
    rw [List.filterMap_cons_some hf, List.map_cons, ih hrest, id_of_findFile hf]

/-- Labels that are sorted by what they have are all there, once. -/
theorem perm_flatMap_filter {ids : List FileId} (hids : ids.Nodup) (ls : List Label)
    (h : ∀ l ∈ ls, l.location.file ∈ ids) :
    (ids.flatMap fun id => ls.filter fun l => l.location.file = id).Perm ls := by
  induction ids generalizing ls with
  | nil =>
    have hnil : ls = [] := List.eq_nil_iff_forall_not_mem.2 fun l hl => List.not_mem_nil (h l hl)
    rw [hnil]
    rfl
  | cons id ids ih =>
    obtain ⟨hid, hids⟩ := List.nodup_cons.1 hids
    -- the other labels are sorted by the other numbers
    have hrest : (ids.flatMap fun i => ls.filter fun l => l.location.file = i) =
        ids.flatMap fun i => (ls.filter fun l => !decide (l.location.file = id)).filter fun l =>
          l.location.file = i := by
      apply List.flatMap_congr
      intro i hi
      rw [List.filter_filter]
      apply List.filter_congr
      intro l _
      have hne : i ≠ id := by
        rintro rfl
        exact hid hi
      by_cases hl : l.location.file = i
      · simp [hl, hne]
      · simp [hl]
    rw [List.flatMap_cons, hrest]
    refine ((ih hids _ ?_).append_left _).trans (List.filter_append_perm _ ls)
    intro l hl
    obtain ⟨hl, hne⟩ := List.mem_filter.1 hl
    rcases List.mem_cons.1 (h l hl) with heq | hmem
    · simp [heq] at hne
    · exact hmem

/-- A report whose labels are all in known files is shown whole. -/
theorem sliced_of_known {r : Report}
    (h : ∀ l ∈ r.labels, (findFile files l.location.file).isSome) :
    r.Sliced files (r.labelledFiles.filterMap (findFile files)) := by
  have hknown : ∀ id ∈ r.labelledFiles, (findFile files id).isSome := by
    intro id hid
    obtain ⟨l, hl, rfl⟩ := List.mem_map.1 (FirstSeen.mem_ofList.1 hid)
    exact h l hl
  have hids := map_id_filterMap_findFile hknown
  refine ⟨rfl, ?_, ?_, ?_, ?_, ?_⟩
  · intro sl hsl
    obtain ⟨f, hf, rfl⟩ := List.mem_map.1 hsl
    obtain ⟨id, hid, hfind⟩ := List.mem_filterMap.1 hf
    obtain ⟨l, hl, hfile⟩ := List.mem_map.1 (FirstSeen.mem_ofList.1 hid)
    have hmem : l ∈ r.labels.filter fun l => l.location.file = f.id :=
      List.mem_filter.2 ⟨hl, by simp [hfile, id_of_findFile hfind]⟩
    intro hnil
    rw [List.map_eq_nil_iff.1 hnil] at hmem
    cases hmem
  · intro f hf
    obtain ⟨id, -, hfind⟩ := List.mem_filterMap.1 hf
    rw [id_of_findFile hfind, ← findFile_eq_head?]
    exact hfind
  · rw [hids]
    exact FirstSeen.nodup_ofList _
  · rw [hids]
    exact FirstSeen.pairwise_ofList _
  · have hnodup : r.labelledFiles.Nodup := FirstSeen.nodup_ofList _
    have hperm := perm_flatMap_filter hnodup r.labels fun l hl =>
      FirstSeen.mem_ofList.2 (List.mem_map_of_mem hl)
    rw [← hids, List.flatMap_map] at hperm
    exact hperm

theorem isPlaced_of_about {l l' : Label} (h : (Remark.about files l').label? = some l) :
    l.location.isPlaced files = true := by
  unfold Remark.about at h
  cases hplaced : l'.location.isPlaced files with
  | true =>
    rw [if_pos hplaced] at h
    obtain rfl := Option.some.inj h
    exact hplaced
  | false =>
    rw [hplaced] at h
    cases h

/-- Labels are only put where they can be shown. -/
theorem isPlaced_of_mem_remarks {g : DiagnosticGroup} {m : Remark} (hm : m ∈ g.remarks files)
    {l : Label} (hl : m.label? = some l) : l.location.isPlaced files = true := by
  rcases List.mem_append.1 hm with hm | hm
  · obtain ⟨place, -, rfl⟩ := Option.map_eq_some_iff.1 (Option.mem_toList.1 hm)
    exact isPlaced_of_about hl
  · obtain ⟨note, -, rfl⟩ := List.mem_map.1 hm
    unfold Remark.ofNote at hl
    cases hplace : note.location with
    | none =>
      rw [hplace] at hl
      cases hl
    | some place =>
      rw [hplace] at hl
      exact isPlaced_of_about hl

theorem sliced_ofGroup (g : DiagnosticGroup) :
    (ofGroup files g).Sliced files
      ((ofGroup files g).labelledFiles.filterMap (findFile files)) := by
  apply sliced_of_known
  intro l hl
  rw [(tells_ofGroup g).labels] at hl
  obtain ⟨m, hm, hml⟩ := List.mem_filterMap.1 hl
  have hplaced := isPlaced_of_mem_remarks hm hml
  rw [← Option.not_isNone, isNone_findFile, Bool.not_not]
  exact (Bool.and_eq_true_iff.1 hplaced).2

end Report

/-- Nothing that is reported is lost. Diagnostics are cut into groups, one after the other, where an
error or a warning stands, and this is what taking them one at a time comes to. The report about a
group has the severity and the message of its head; the location of the head, if it has one, and
each note after it are a label or a footer, in order, and a footer about a location names its file.
The snippet of the report has its footers, and each of its labels in one slice, that of its file; no
slice is without a label, and the files are different ones, in the order in which they were first
labelled. -/
theorem reports_lose_nothing (files : List SourceFile) (ds : List Diagnostic) :
    (∀ gs, DiagnosticGroup.Cuts ds gs ↔ gs = DiagnosticGroup.ofList ds) ∧
    Report.ofList files ds = ds.foldl (Report.extend files) [] ∧
    List.Forall₂ (fun g r =>
        r.Tells g.head (g.remarks files) ∧
        (r.snippet files).severity = r.severity ∧
        (r.snippet files).title = r.title ∧
        (r.snippet files).footers = r.footers ∧
        ∃ fs, r.Sliced files fs)
      (DiagnosticGroup.ofList ds) (Report.ofList files ds) := by
  refine ⟨fun gs => DiagnosticGroup.cuts_iff, Report.ofList_eq_foldl files ds, ?_⟩
  rw [Report.ofList, List.forall₂_map_right_iff, List.forall₂_same]
  intro g _
  exact ⟨Report.tells_ofGroup g, rfl, rfl, rfl, _, Report.sliced_ofGroup g⟩

-- a place without text, and one in a file that is not there, are told by the names of their files
example : (Report.ofList [⟨⟨0⟩, "a", "x"⟩]
      [.error (some ⟨⟨0⟩, ⟨1, 0⟩⟩) "e", .note (some ⟨⟨7⟩, ⟨0, 1⟩⟩) "n"]).map Report.footers =
    [[⟨.error, "in a"⟩, ⟨.note, "n (in file#7)"⟩]] := by decide +kernel

-- a note that nothing is before is the title of its report
example : Report.ofList [] [.note none "a", .note none "b", .error none "c"] =
    [⟨.note, "a", [], [⟨.note, "b"⟩]⟩, ⟨.error, "c", [], []⟩] := by decide

end Demand
