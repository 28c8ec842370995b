import TwigTemplate.Files

/-!
# Paths and the files of a directory

A path that names something in a directory leads to it, so the files of a directory are found at
the paths to which a walk leads.  Whether such a file is a template depends on its name alone.
-/

namespace TwigTemplate

/-- The text names something in a directory: it is not empty, has no slash, and does not mean a
directory relative to others. -/
structure IsName (name : String) : Prop where
  /-- There is a name. -/
  filled : name ≠ ""
  /-- The name does not mean the directory itself. -/
  proper : name ≠ "."
  /-- The name does not mean the directory around it. -/
  inner : name ≠ ".."
  /-- The name is a single one. -/
  single : '/' ∉ name.toList

instance (name : String) : Decidable (IsName name) :=
  decidable_of_iff (name ≠ "" ∧ name ≠ "." ∧ name ≠ ".." ∧ '/' ∉ name.toList)
    ⟨fun ⟨filled, proper, inner, single⟩ => ⟨filled, proper, inner, single⟩,
      fun ⟨filled, proper, inner, single⟩ => ⟨filled, proper, inner, single⟩⟩

/-- The path is that of a name in a directory. -/
def IsPathOf (name path : String) : Prop := IsName name ∧ ∃ front, path = front ++ "/" ++ name

theorem namesOn_append (front back : String) :
    namesOn (front ++ "/" ++ back) = namesOn front ++ namesOn back := by
  have slash : "/".toList = ['/'] := rfl
  rw [namesOn, String.toList_append, String.toList_append, slash, List.append_assoc,
    List.singleton_append, groupsBetween_append (by rfl), List.map_append]
  rfl

namespace IsName

variable {name : String}

theorem namesOn_eq (named : IsName name) : namesOn name = [name] := by
  have whole : ∀ char ∈ name.toList, (char == '/') = false := by
    intro char member
    rw [beq_eq_false_iff_ne]
    rintro rfl
    exact named.single member
  rw [namesOn, groupsBetween_of_forall whole, List.map_singleton, String.ofList_toList]

theorem fileName?_eq (named : IsName name) (front : String) :
    Options.fileName? (front ++ "/" ++ name) = some name := by
  have kept : [name].filter (fun name => name != "" && name != ".") = [name] := by
    simp [named.filled, named.proper]
  rw [Options.fileName?, namesOn_append, named.namesOn_eq, List.filter_append, kept]
  simp [named.inner]

end IsName

namespace Options

/-- The name is something, a point, and one of the extensions. -/
def NamesTemplate (options : Options) (name : String) : Prop :=
  ∃ stem extension, stem ≠ "" ∧ extension ∈ options.extensions ∧ name = stem ++ "." ++ extension

theorem ending_iff {name extension : String} :
    ('.' :: extension.toList).length < name.length ∧ '.' :: extension.toList <:+ name.toList ↔
      ∃ stem, stem ≠ "" ∧ name = stem ++ "." ++ extension := by
  have point : ".".toList = ['.'] := rfl
  rw [← String.length_toList]
  constructor
  · rintro ⟨longer, stem, ending⟩
    refine ⟨String.ofList stem, ?_, ?_⟩
    · intro empty
      rw [String.ofList_eq_empty_iff] at empty
      rw [← ending, empty, List.nil_append] at longer
      exact Nat.lt_irrefl _ longer
    · rw [← String.toList_inj, ← ending]
      simp [point]
  · rintro ⟨stem, filled, rfl⟩
    rw [String.toList_append, String.toList_append, point, List.append_assoc,
      List.singleton_append, List.length_append]
    have some_stem : 0 < stem.toList.length :=
      List.length_pos_iff.mpr fun empty => filled (String.toList_eq_nil_iff.mp empty)
    exact ⟨by omega, List.suffix_append _ _⟩

/-- The path leads to a file with the name of a template. -/
def IsTemplate (options : Options) (path : String) : Prop :=
  ∃ name, IsPathOf name path ∧ options.NamesTemplate name

theorem covers_iff_namesTemplate {options : Options} {name path : String}
    (leads : IsPathOf name path) :
    options.covers path = true ↔ options.NamesTemplate name := by
  obtain ⟨named, front, rfl⟩ := leads
  rw [covers, named.fileName?_eq, Option.any_some, List.any_eq_true]
  simp only [Bool.and_eq_true, decide_eq_true_eq, List.isSuffixOf_iff_suffix, ending_iff]
  constructor
  · rintro ⟨extension, configured, stem, filled, same⟩
    exact ⟨stem, extension, filled, configured, same⟩
  · rintro ⟨stem, extension, filled, configured, same⟩
    exact ⟨extension, configured, stem, filled, same⟩

/-- Of files that have a name, those with the name of a template are templates. -/
theorem covers_iff_isTemplate {options : Options} {name path : String}
    (leads : IsPathOf name path) :
    options.covers path = true ↔ options.IsTemplate path := by
  constructor
  · exact fun covered => ⟨name, leads, (covers_iff_namesTemplate leads).mp covered⟩
  · rintro ⟨other, other_leads, template⟩
    exact (covers_iff_namesTemplate other_leads).mpr template

end Options

namespace Entry

variable {above : List Entry} {root entry target : Entry} {path name : String}
  {entries : List (String × Entry)}

theorem exists_join_eq (path name : String) :
    ∃ front, join path name = front ++ "/" ++ name ∧ (path = front ∨ path = front ++ "/") := by
  rw [join]
  split
  · rename_i ends
    obtain ⟨front, split⟩ := List.getLast?_eq_some_iff.mp (beq_iff_eq.mp ends)
    have path_eq : path = String.ofList front ++ "/" := by
      rw [← String.toList_inj, String.toList_append, split]
      simp
    exact ⟨String.ofList front, by rw [path_eq], .inr path_eq⟩
  · exact ⟨path, rfl, .inl rfl⟩

theorem isPathOf_join (named : IsName name) (path : String) : IsPathOf name (join path name) := by
  obtain ⟨front, joined, -⟩ := exists_join_eq path name
  exact ⟨named, front, joined⟩

/-- More names go on from where the first ones lead, if they lead anywhere. -/
theorem follow?_append (above : List Entry) (entry : Entry) (names : List String) :
    (follow? above entry names = none ∧
      ∀ more, follow? above entry (names ++ more) = none) ∨
    ∃ inner around, follow? above entry names = some inner ∧
      ∀ more, follow? above entry (names ++ more) = follow? around inner more := by
  induction names generalizing above entry with
  | nil => exact .inr ⟨entry, above, rfl, fun _ => rfl⟩
  | cons name names ih =>
      cases entry with
      | file content => exact .inl ⟨rfl, fun _ => rfl⟩
      | directory entries =>
          simp only [List.cons_append, follow?]
          split
          · exact ih above _
          split
          · cases above with
            | nil => exact .inl ⟨rfl, fun _ => rfl⟩
            | cons parent above => exact ih above parent
          · cases entries.lookup name with
            | none => exact .inl ⟨rfl, fun _ => rfl⟩
            | some inner => exact ih _ inner

/-- One more name leads to what it stands for. -/
theorem follow?_append_name {names : List String} (named : IsName name)
    (found : follow? above entry names = some (directory entries)) :
    follow? above entry (names ++ [name]) = entries.lookup name := by
  rcases follow?_append above entry names with ⟨missing, -⟩ | ⟨inner, around, leads, further⟩
  · exact absurd (missing.symm.trans found) (by simp)
  · obtain rfl : inner = directory entries := Option.some.inj (leads.symm.trans found)
    rw [further]
    simp only [follow?]
    rw [if_neg (by simp [named.filled, named.proper]), if_neg (by simpa using named.inner)]
    cases entries.lookup name <;> rfl

/-- A slash at the end leads no further. -/
theorem follow?_of_append_empty {names : List String}
    (found : follow? above entry (names ++ [""]) = some (directory entries)) :
    follow? above entry names = some (directory entries) := by
  rcases follow?_append above entry names with ⟨-, nothing⟩ | ⟨inner, around, leads, further⟩
  · exact absurd ((nothing _).symm.trans found) (by simp)
  · rw [further] at found
    rw [leads, ← found]
    cases inner with
    | file content => cases found
    | directory inside => simp [follow?]

/-- The path does not lead out of the directory where it starts. -/
def IsRelative (path : String) : Prop := ∃ first rest, path.toList = first :: rest ∧ first ≠ '/'

theorem isRelative_iff : IsRelative path ↔ (path.startsWith "/" || path.isEmpty) = false := by
  have slash : "/".toList = ['/'] := rfl
  rw [Bool.or_eq_false_iff, Bool.eq_false_iff, Bool.eq_false_iff, ne_eq, ne_eq,
    String.startsWith_string_iff, String.isEmpty_iff, ← String.toList_eq_nil_iff, slash, IsRelative]
  cases path.toList with
  | nil => simp
  | cons first rest => simp [eq_comm]

theorem find?_of_isRelative (relative : IsRelative path) :
    root.find? path = follow? [] root (namesOn path) := by
  rw [find?, isRelative_iff.mp relative]
  rfl

theorem isRelative_of_find? (found : root.find? path = some target) : IsRelative path := by
  rw [isRelative_iff]
  rw [find?] at found
  split at found
  · cases found
  · rename_i relative
    simpa using relative

theorem IsRelative.append {front : String} (relative : IsRelative front) (back : String) :
    IsRelative (front ++ back) := by
  obtain ⟨first, rest, split, inner⟩ := relative
  exact ⟨first, rest ++ back.toList, by rw [String.toList_append, split, List.cons_append], inner⟩

theorem IsRelative.of_append_slash {front : String} (relative : IsRelative (front ++ "/")) :
    IsRelative front := by
  have slash : "/".toList = ['/'] := rfl
  obtain ⟨first, rest, split, inner⟩ := relative
  rw [String.toList_append, slash] at split
  cases chars : front.toList with
  | nil =>
      rw [chars, List.nil_append, List.cons.injEq] at split
      exact absurd split.1.symm inner
  | cons char chars' =>
      rw [chars, List.cons_append, List.cons.injEq] at split
      exact ⟨char, chars', chars, split.1 ▸ inner⟩

/-- The path of a name in a directory leads to what the name stands for there. -/
theorem find?_join (named : IsName name) (found : root.find? path = some (directory entries)) :
    root.find? (join path name) = entries.lookup name := by
  have relative := isRelative_of_find? found
  rw [find?_of_isRelative relative] at found
  obtain ⟨front, joined, around⟩ := exists_join_eq path name
  have leads : IsRelative front ∧ follow? [] root (namesOn front) = some (directory entries) := by
    rcases around with rfl | rfl
    · exact ⟨relative, found⟩
    · have names_eq : namesOn (front ++ "/") = namesOn front ++ [""] := by
        have nothing_after := namesOn_append front ""
        rwa [String.append_empty] at nothing_after
      rw [names_eq] at found
      exact ⟨relative.of_append_slash, follow?_of_append_empty found⟩
  rw [joined, find?_of_isRelative ((leads.1.append "/").append name), namesOn_append,
    named.namesOn_eq, follow?_append_name named leads.2]

/-! ### The files of a directory -/

/-- In each directory, names are names and no two are the same. -/
inductive WellFormed : Entry → Prop
  /-- A file. -/
  | file (content : ByteArray) : WellFormed (.file content)
  /-- A directory and everything in it. -/
  | directory {entries : List (String × Entry)} (named : ∀ item ∈ entries, IsName item.1)
      (distinct : (entries.map Prod.fst).Nodup) (inside : ∀ item ∈ entries, item.2.WellFormed) :
      WellFormed (.directory entries)

theorem filesOf_eq_map (path : String) (entries : List (String × Entry)) :
    filesOf path entries =
      entries.map fun (name, entry) => (name, files (join path name) entry) := by
  induction entries with
  | nil => rfl
  | cons item entries ih => rw [filesOf, ih, List.map_cons]

theorem mem_files_directory_iff {file : String × ByteArray} :
    file ∈ (directory entries).files path ↔
      ∃ item ∈ entries, file ∈ item.2.files (join path item.1) := by
  rw [files, filesOf_eq_map, List.mem_flatMap]
  constructor
  · rintro ⟨listed, member, within⟩
    obtain ⟨item, among, rfl⟩ := List.mem_map.mp (List.mem_mergeSort.mp member)
    exact ⟨item, among, within⟩
  · rintro ⟨item, among, within⟩
    exact ⟨_, List.mem_mergeSort.mpr (List.mem_map_of_mem among), within⟩

theorem lookup_of_mem {item : String × Entry} (distinct : (entries.map Prod.fst).Nodup)
    (member : item ∈ entries) : entries.lookup item.1 = some item.2 := by
  obtain ⟨before, after, rfl⟩ := List.append_of_mem member
  rw [List.lookup_eq_some_iff]
  refine ⟨before, after, rfl, fun other among => ?_⟩
  rw [List.map_append, List.nodup_append] at distinct
  rw [bne_iff_ne]
  exact (distinct.2.2 other.1 (List.mem_map_of_mem among) item.1 (by simp)).symm

/-- What is found in a well-formed tree is well-formed. -/
theorem WellFormed.follow? {names : List String} (around : ∀ outer ∈ above, outer.WellFormed)
    (wellFormed : entry.WellFormed) (found : Entry.follow? above entry names = some target) :
    target.WellFormed := by
  induction names generalizing above entry with
  | nil => exact Option.some.inj found ▸ wellFormed
  | cons name names ih =>
      cases wellFormed with
      | file content => cases found
      | directory named distinct inside =>
          have whole := WellFormed.directory named distinct inside
          simp only [Entry.follow?] at found
          split at found
          · exact ih around whole found
          split at found
          · cases above with
            | nil => cases found
            | cons parent above =>
                rw [List.forall_mem_cons] at around
                exact ih around.2 around.1 found
          · split at found
            · cases found
            · rename_i inner known
              obtain ⟨before, after, rfl, -⟩ := List.lookup_eq_some_iff.mp known
              exact ih (List.forall_mem_cons.mpr ⟨whole, around⟩)
                (inside (name, inner) (by simp)) found

/-- A walk over the files at a path leads to them. -/
theorem find?_of_mem_files {file : String × ByteArray} (wellFormed : entry.WellFormed)
    (found : root.find? path = some entry) (member : file ∈ entry.files path) :
    root.find? file.1 = some (.file file.2) := by
  induction wellFormed generalizing path with
  | file content =>
      rw [files] at member
      obtain rfl := List.mem_singleton.mp member
      exact found
  | directory named distinct inside ih =>
      obtain ⟨item, among, within⟩ := mem_files_directory_iff.mp member
      refine ih item among ?_ within
      rw [find?_join (named item among) found, lookup_of_mem distinct among]

/-- The files of a directory have names. -/
theorem exists_isPathOf_of_mem_files {file : String × ByteArray} (wellFormed : entry.WellFormed)
    (leads : IsPathOf name path) (member : file ∈ entry.files path) :
    ∃ name, IsPathOf name file.1 := by
  induction wellFormed generalizing path name with
  | file content =>
      rw [files] at member
      obtain rfl := List.mem_singleton.mp member
      exact ⟨name, leads⟩
  | directory named distinct inside ih =>
      obtain ⟨item, among, within⟩ := mem_files_directory_iff.mp member
      exact ih item among (isPathOf_join (named item among) path) within

theorem covers_iff_of_mem_files {options : Options} {file : String × ByteArray}
    (wellFormed : (directory entries).WellFormed) (member : file ∈ (directory entries).files path) :
    options.covers file.1 = true ↔ options.IsTemplate file.1 := by
  obtain ⟨item, among, within⟩ := mem_files_directory_iff.mp member
  cases wellFormed with
  | directory named distinct inside =>
      obtain ⟨name, leads⟩ := exists_isPathOf_of_mem_files (inside item among)
        (isPathOf_join (named item among) path) within
      exact Options.covers_iff_isTemplate leads

end Entry
end TwigTemplate
