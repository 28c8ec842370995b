import TwigTemplate.Command.Outcome
import TwigTemplate.Proofs.Files

/-!
# Checks of directories

A check goes from file to file.  Each file adds to it what a check of this file alone yields, so the
check of a directory is the sum of the checks of the templates in it.
-/

namespace TwigTemplate

theorem Entry.text?_toUTF8 (path text : String) : (file text.toUTF8).text? path = .ok text := by
  have reads : String.fromUTF8? text.toUTF8 = some text := dif_pos text.isValidUTF8
  rw [text?, reads]

namespace Check

variable {options : Options}

/-- A template is fine if and only if nothing is wrong with it. -/
theorem reportOn_snd_iff (path text : String) :
    (reportOn options path text).2 = true ↔
      (Document.parse options (Source.ofString text)).diagnostics = [] := by
  rw [reportOn]
  cases (Document.parse options (Source.ofString text)).diagnostics <;> simp

theorem step_toUTF8 (check : Check) (path text : String) :
    step options check path text.toUTF8 =
      .ok ⟨check.errors ++ (reportOn options path text).1, check.count + 1,
        if (reportOn options path text).2 then check.failed else check.failed + 1⟩ := by
  rw [step, Entry.text?_toUTF8]

/-- The outcome for a single file. -/
theorem run_singleton (path text : String) :
    run options [(path, text.toUTF8)] =
      finish ⟨(reportOn options path text).1, 1,
        if (reportOn options path text).2 then 0 else 1⟩ := by
  simp only [run, List.foldlM_cons, List.foldlM_nil, step_toUTF8]
  simp [start, bind, Except.bind, pure, Except.pure]

theorem success_run_singleton_iff (path text : String) :
    (run options [(path, text.toUTF8)]).success = true ↔
      (Document.parse options (Source.ofString text)).diagnostics = [] := by
  rw [run_singleton, ← reportOn_snd_iff path]
  cases (reportOn options path text).2 <;> simp [finish]

theorem summary_run_singleton (path text : String) :
    let single := run options [(path, text.toUTF8)]
    single.summary = some (summary ⟨single.errors, 1, if single.success then 0 else 1⟩) := by
  rw [run_singleton]
  cases (reportOn options path text).2 <;> rfl

/-- One more file adds what its own check yields. -/
theorem step_eq (check : Check) (path text : String) :
    step options check path text.toUTF8 =
      let single := run options [(path, text.toUTF8)]
      .ok ⟨check.errors ++ single.errors, check.count + 1,
        check.failed + if single.success then 0 else 1⟩ := by
  rw [step_toUTF8, run_singleton]
  cases clean : (reportOn options path text).2 <;> simp [finish]

/-- Going on over files adds what their own checks yield. -/
theorem foldlM_step_eq {files : List (String × ByteArray)}
    (readable : ∀ file ∈ files, ∃ text : String, file.2 = text.toUTF8) (check : Check) :
    files.foldlM (fun check (path, content) => step options check path content) check =
      .ok ⟨check.errors ++ String.join (files.map fun file => (run options [file]).errors),
        check.count + files.length,
        check.failed + files.countP fun file => !(run options [file]).success⟩ := by
  induction files generalizing check with
  | nil => simp [pure, Except.pure]
  | cons file files ih =>
      obtain ⟨path, content⟩ := file
      obtain ⟨⟨text, rfl⟩, later⟩ := List.forall_mem_cons.mp readable
      rw [List.foldlM_cons]
      dsimp only
      rw [step_eq]
      dsimp only [bind, Except.bind]
      rw [ih later, List.map_cons, String.join_cons, String.append_assoc, List.length_cons,
        List.countP_cons, Nat.add_comm files.length, Nat.add_assoc, Nat.add_assoc,
        Nat.add_comm (files.countP _)]
      cases (run options [(path, text.toUTF8)]).success <;> rfl

/-- A check of files is the sum of their own checks. -/
theorem run_eq {files : List (String × ByteArray)} {single : String × ByteArray → Outcome}
    (readable : ∀ file ∈ files, ∃ text : String, file.2 = text.toUTF8)
    (alone : ∀ file ∈ files, single file = run options [file]) :
    run options files =
      finish ⟨String.join (files.map fun file => (single file).errors), files.length,
        files.countP fun file => !(single file).success⟩ := by
  have errors_eq : (files.map fun file => (single file).errors) =
      files.map fun file => (run options [file]).errors :=
    List.map_congr_left fun file member => by rw [alone file member]
  have failed_eq : (files.countP fun file => !(single file).success) =
      files.countP fun file => !(run options [file]).success :=
    List.countP_congr fun file member => by rw [alone file member]
  rw [run, foldlM_step_eq readable, errors_eq, failed_eq]
  simp [start]

end Check

namespace Surroundings

/-- There is a directory at a path, and what is in it is found where a walk leads. -/
structure HasDirectory (surroundings : Surroundings) (path : String)
    (entries : List (String × Entry)) : Prop where
  /-- The directory is at the path. -/
  found : surroundings.entryAt? path = some (.directory entries)
  /-- Everything in it has a name of its own. -/
  wellFormed : (Entry.directory entries).WellFormed
  /-- The files in it are found where a walk leads. -/
  reached : ∀ file ∈ (Entry.directory entries).files path,
    surroundings.entryAt? file.1 = some (.file file.2)

/-- All directories of a tree of files are such ones. -/
theorem hasDirectory_of_tree {root : Entry} {path : String} {entries : List (String × Entry)}
    (wellFormed : root.WellFormed) (found : root.find? path = some (.directory entries))
    (input : ByteArray) : HasDirectory ⟨root.find?, input⟩ path entries := by
  have inside : (Entry.directory entries).WellFormed := by
    have leads := found
    rw [Entry.find?_of_isRelative (Entry.isRelative_of_find? found)] at leads
    exact wellFormed.follow? (List.forall_mem_nil _) leads
  exact ⟨found, inside, fun file member => Entry.find?_of_mem_files inside found member⟩

/-- The outcome of the check of a path. -/
def checked (surroundings : Surroundings) (config : Option String) (verbose : Bool)
    (path : String) : Outcome :=
  (⟨.check path, config, verbose⟩ : Invocation).outcome surroundings

section Checked

variable {surroundings : Surroundings} {options : Options} {config : Option String}
  {path : String} {entries : List (String × Entry)}

theorem checked_eq {verbose : Bool} {files : List (String × ByteArray)}
    (configured : surroundings.options config = .ok options)
    (listed : Check.files options surroundings path = .ok files) :
    surroundings.checked config verbose path = Check.run options files := by
  rw [checked, Invocation.outcome, configured]
  simp [bind, Except.bind, Command.run, listed, pure, Except.pure]

theorem checked_of_file {verbose : Bool} {content : ByteArray}
    (configured : surroundings.options config = .ok options)
    (found : surroundings.entryAt? path = some (.file content))
    (covered : options.covers path = true) :
    surroundings.checked config verbose path = Check.run options [(path, content)] := by
  apply checked_eq configured
  rw [Check.files, found]
  exact if_pos covered

/-- The check of a directory is the sum of its files.  The files that it checks are those with the
name of a template.  What it writes is what the checks of these files write, in the order of the
walk; it counts them and those of them whose own check fails, and it succeeds if and only if the
checks of all of them do, that is, if nothing is wrong with any of them. -/
theorem checked_directory (verbose : Bool) (configured : surroundings.options config = .ok options)
    (there : surroundings.HasDirectory path entries)
    (readable : ∀ file ∈ (Entry.directory entries).files path, options.IsTemplate file.1 →
      ∃ text : String, file.2 = text.toUTF8) :
    let walked := (Entry.directory entries).files path
    let templates := walked.filter (options.covers ·.1)
    let whole := surroundings.checked config verbose path
    let single := fun file : String × ByteArray => surroundings.checked config verbose file.1
    (∀ file ∈ walked, file ∈ templates ↔ options.IsTemplate file.1) ∧
      whole.output = "" ∧
      whole.errors = String.join (templates.map fun file => (single file).errors) ∧
      whole.summary = some (Check.summary ⟨whole.errors, templates.length,
        templates.countP fun file => !(single file).success⟩) ∧
      (whole.success = true ↔ ∀ file ∈ templates, (single file).success = true) ∧
      ∀ file ∈ templates, ∃ text : String, file.2 = text.toUTF8 ∧
        ((single file).success = true ↔
          (Document.parse options (Source.ofString text)).diagnostics = []) ∧
        (single file).summary = some (Check.summary ⟨(single file).errors, 1,
          if (single file).success then 0 else 1⟩) := by
  intro walked templates whole single
  have template_iff : ∀ file ∈ walked, file ∈ templates ↔ options.IsTemplate file.1 := by
    intro file member
    rw [List.mem_filter, Entry.covers_iff_of_mem_files there.wellFormed member]
    exact and_iff_right member
  have texts : ∀ file ∈ templates, ∃ text : String, file.2 = text.toUTF8 := by
    intro file member
    have among := (List.mem_filter.mp member).1
    exact readable file among ((template_iff file among).mp member)
  have single_eq : ∀ file ∈ templates, single file = Check.run options [file] := by
    intro file member
    obtain ⟨among, covered⟩ := List.mem_filter.mp member
    exact checked_of_file configured (there.reached file among) covered
  have listed : Check.files options surroundings path = .ok templates := by
    rw [Check.files, there.found]
  have summed : whole = Check.finish _ :=
    (checked_eq configured listed).trans (Check.run_eq texts single_eq)
  rw [summed]
  refine ⟨template_iff, rfl, rfl, rfl, ?_, ?_⟩
  · simp [Check.finish, List.countP_eq_zero]
  · intro file member
    obtain ⟨text, content_eq⟩ := texts file member
    obtain ⟨path, content⟩ := file
    obtain rfl : content = text.toUTF8 := content_eq
    rw [single_eq _ member]
    exact ⟨text, rfl, Check.success_run_singleton_iff path text,
      Check.summary_run_singleton path text⟩

end Checked

/-- A directory with a template that is never ended, a file that is not text, and another directory
with a template that is fine. -/
theorem checked_directory_with_failure :
    let entries : List (String × Entry) :=
      [("b.twig", .file "\x7b% if a %\x7d".toUTF8), ("note", .file ⟨#[255]⟩),
        ("a", .directory [("c.twig", .file "c".toUTF8)])]
    let surroundings : Surroundings :=
      ⟨(Entry.directory [("t", .directory entries)]).find?, .empty⟩
    let whole := surroundings.checked none false "t/"
    let fine := surroundings.checked none false "t/a/c.twig"
    let unended := surroundings.checked none false "t/b.twig"
    surroundings.options none = .ok .default ∧
      surroundings.HasDirectory "t/" entries ∧
      (∀ file ∈ (Entry.directory entries).files "t/", Options.default.IsTemplate file.1 →
        ∃ text : String, file.2 = text.toUTF8) ∧
      whole.errors = fine.errors ++ unended.errors ∧
      whole.summary = some "\nChecked 2 files, 1 with problems" ∧
      fine.success = true ∧ unended.success = false ∧ whole.success = false := by
  intro entries surroundings whole fine unended
  have configured : surroundings.options none = .ok .default := rfl
  have wellFormed : (Entry.directory [("t", .directory entries)]).WellFormed := by
    have further : (Entry.directory [("c.twig", .file "c".toUTF8)]).WellFormed := by
      refine .directory ?_ (by decide) ?_
      · exact List.forall_mem_singleton.mpr (by decide)
      · exact List.forall_mem_singleton.mpr (.file _)
    have inside : (Entry.directory entries).WellFormed := by
      refine .directory ?_ (by decide) ?_
      · simp only [entries, List.forall_mem_cons]
        exact ⟨by decide, by decide, by decide, List.forall_mem_nil _⟩
      · simp only [entries, List.forall_mem_cons]
        exact ⟨.file _, .file _, further, List.forall_mem_nil _⟩
    refine .directory ?_ (by decide) ?_
    · exact List.forall_mem_singleton.mpr (by decide)
    · exact List.forall_mem_singleton.mpr inside
  have found : (Entry.directory [("t", .directory entries)]).find? "t/" =
      some (.directory entries) := by
    rw [Entry.find?_of_isRelative ⟨'t', ['/'], rfl, by decide⟩]
    rfl
  have there : surroundings.HasDirectory "t/" entries :=
    hasDirectory_of_tree wellFormed found .empty
  have walked : (Entry.directory entries).files "t/" =
      [("t/a/c.twig", "c".toUTF8), ("t/b.twig", "\x7b% if a %\x7d".toUTF8),
        ("t/note", ⟨#[255]⟩)] := by
    simp [entries, Entry.files, Entry.filesOf, List.mergeSort, Entry.join]
  have covered : ((Entry.directory entries).files "t/").filter (Options.default.covers ·.1) =
      [("t/a/c.twig", "c".toUTF8), ("t/b.twig", "\x7b% if a %\x7d".toUTF8)] := by
    rw [walked]
    rfl
  have readable : ∀ file ∈ (Entry.directory entries).files "t/",
      Options.default.IsTemplate file.1 → ∃ text : String, file.2 = text.toUTF8 := by
    intro file member template
    have kept : file ∈ ((Entry.directory entries).files "t/").filter
        (Options.default.covers ·.1) := List.mem_filter.mpr
      ⟨member, (Entry.covers_iff_of_mem_files there.wellFormed member).mpr template⟩
    rw [covered, List.mem_cons, List.mem_singleton] at kept
    rcases kept with rfl | rfl
    · exact ⟨"c", rfl⟩
    · exact ⟨"\x7b% if a %\x7d", rfl⟩
  have fine_succeeds : fine.success = true := by
    have reached := there.reached ("t/a/c.twig", "c".toUTF8) (by simp [walked])
    have alone : fine = Check.run .default [("t/a/c.twig", "c".toUTF8)] :=
      checked_of_file configured reached rfl
    rw [alone]
    decide +kernel
  have unended_fails : unended.success = false := by
    have reached := there.reached ("t/b.twig", "\x7b% if a %\x7d".toUTF8) (by simp [walked])
    have alone : unended = Check.run .default [("t/b.twig", "\x7b% if a %\x7d".toUTF8)] :=
      checked_of_file configured reached rfl
    rw [alone]
    decide +kernel
  obtain ⟨-, -, errors_eq, summary_eq, success_iff, -⟩ :=
    checked_directory false configured there readable
  rw [covered] at errors_eq summary_eq success_iff
  refine ⟨configured, there, readable, ?_, ?_, fine_succeeds, unended_fails, ?_⟩
  · simpa only [List.map_cons, List.map_nil, String.join_cons, String.join_nil,
      String.append_empty] using errors_eq
  · have one_fails : [("t/a/c.twig", "c".toUTF8), ("t/b.twig", "\x7b% if a %\x7d".toUTF8)].countP
        (fun file => !(surroundings.checked none false file.1).success) = 1 := by
      simp only [List.countP_cons, List.countP_nil]
      rw [fine_succeeds, unended_fails]
      rfl
    have counted (errors : String) :
        Check.summary ⟨errors, 2, 1⟩ = "\nChecked 2 files, 1 with problems" := by
      cbv
    rw [summary_eq, one_fails]
    exact congrArg some (counted _)
  · rw [Bool.eq_false_iff]
    intro succeeds
    have both := success_iff.mp succeeds ("t/b.twig", "\x7b% if a %\x7d".toUTF8) (by simp)
    exact Bool.false_ne_true (unended_fails.symm.trans both)

end Surroundings
end TwigTemplate
