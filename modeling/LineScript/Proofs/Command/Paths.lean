import LineScript.Command.Directory
import LineScript.Command.Report
import LineScript.Proofs.Scope.Chain
import Mathlib.Data.List.TakeWhile

/-!
# Where paths lead

A path is a row of names, and following them leads from folder to folder, from the root or from
the working directory on. Whether that succeeds depends on the folders only, so files that are
written do not change where paths lead (`Directory.SameFolders.locate`). Two paths that differ in
their last names do not lead to the same file (`Directory.name_eq_of_locate`), for a name that
stands for no entry of its own, such as the one of the parent, leads to a folder.

With another extension a path keeps its folder and changes its last name
(`toList_withExtension`). All that is to be known about such a path is therefore said by the
names.
-/

namespace LineScript.Command

namespace Directory

variable {d e : Directory} {here place : Place} {path : String}

/-! ## Names -/

theorem names_cons_slash (path : List Char) : names ('/' :: path) = [] :: names path := rfl

theorem names_cons {c : Char} {path piece : List Char} {pieces : List (List Char)} (hc : c ≠ '/')
    (h : names path = piece :: pieces) : names (c :: path) = (c :: piece) :: pieces := by
  rw [names, List.foldr_cons]
  rw [names] at h
  simp only [h]

theorem names_ne_nil (path : List Char) : names path ≠ [] := by
  cases path with
  | nil => exact List.cons_ne_nil _ _
  | cons c path =>
    rw [names, List.foldr_cons]
    split <;> exact List.cons_ne_nil _ _

theorem names_append_slash (front path : List Char) :
    names (front ++ '/' :: path) = names front ++ names path := by
  induction front with
  | nil => rfl
  | cons c front ih =>
    by_cases hc : c = '/'
    · subst hc
      rw [List.cons_append, names_cons_slash, names_cons_slash, ih, List.cons_append]
    · obtain ⟨piece, pieces, hfront⟩ := List.exists_cons_of_ne_nil (names_ne_nil front)
      rw [hfront, List.cons_append] at ih
      rw [List.cons_append, names_cons hc ih, names_cons hc hfront, List.cons_append]

theorem names_of_not_mem {name : List Char} (h : '/' ∉ name) : names name = [name] := by
  induction name with
  | nil => rfl
  | cons c name ih =>
    rw [List.mem_cons, not_or] at h
    exact names_cons (Ne.symm h.1) (ih h.2)

/-- A folder of a path: nothing, or all up to a slash. -/
def IsFront (folder : List Char) : Prop :=
  folder = [] ∨ ∃ front, folder = front ++ ['/']

theorem IsFront.exists_names {folder : List Char} (h : IsFront folder) :
    ∃ above, ∀ name, '/' ∉ name → names (folder ++ name) = above ++ [name] := by
  obtain rfl | ⟨front, rfl⟩ := h
  · exact ⟨[], fun name hname => names_of_not_mem hname⟩
  · refine ⟨names front, fun name hname => ?_⟩
    rw [List.append_assoc, List.singleton_append, names_append_slash, names_of_not_mem hname]

/-! ## Following names -/

/-- Where a name leads from a folder. -/
def step (here : Place) (name : String) : Place :=
  if name = "" || name = "." then here else if name = ".." then up here else here ++ [name]

theorem follow_cons {name : String} {rest : List String} :
    d.follow here (name :: rest) = .ok place ↔
      d.isFolder here = true ∧ d.follow (step here name) rest = .ok place := by
  rw [follow]
  split
  case isTrue hhere =>
    have hstep : (if name = "" || name = "." then d.follow here rest
        else if name = ".." then d.follow (up here) rest
        else d.follow (here ++ [name]) rest) = d.follow (step here name) rest := by
      unfold step
      split
      · rfl
      · split <;> rfl
    rw [hstep]
    exact ⟨fun h => ⟨hhere, h⟩, And.right⟩
  case isFalse hhere =>
    constructor
    · intro h
      split at h <;> cases h
    · exact fun h => absurd h.1 hhere

theorem follow_append {front rest : List String} :
    d.follow here (front ++ rest) = .ok place ↔
      ∃ middle, d.follow here front = .ok middle ∧ d.follow middle rest = .ok place := by
  induction front generalizing here with
  | nil => simp [follow]
  | cons name front ih =>
    simp only [List.cons_append, follow_cons, ih]
    constructor
    · rintro ⟨hhere, middle, hfront, hrest⟩
      exact ⟨middle, ⟨hhere, hfront⟩, hrest⟩
    · rintro ⟨middle, ⟨hhere, hfront⟩, hrest⟩
      exact ⟨hhere, middle, hfront, hrest⟩

/-- The directories differ in files only. -/
structure SameFolders (d e : Directory) : Prop where
  working : e.working = d.working
  folders : e.folders = d.folders

theorem SameFolders.refl (d : Directory) : SameFolders d d := ⟨rfl, rfl⟩

theorem SameFolders.symm (h : SameFolders d e) : SameFolders e d :=
  ⟨h.working.symm, h.folders.symm⟩

theorem SameFolders.trans {f : Directory} (h : SameFolders d e) (h' : SameFolders e f) :
    SameFolders d f :=
  ⟨h'.working.trans h.working, h'.folders.trans h.folders⟩

theorem SameFolders.isFolder (h : SameFolders d e) (place : Place) :
    e.isFolder place = d.isFolder place := by
  simp only [Directory.isFolder, h.working, h.folders]

theorem SameFolders.follow (h : SameFolders d e) {front : List String}
    (hfollow : d.follow here front = .ok place) : e.follow here front = .ok place := by
  induction front generalizing here with
  | nil => exact hfollow
  | cons name front ih =>
    rw [follow_cons] at hfollow ⊢
    rw [h.isFolder]
    exact ⟨hfollow.1, ih hfollow.2⟩

theorem follow_of_locate (h : d.locate path = .ok place) :
    d.follow (d.origin path.toList) ((names path.toList).map String.ofList) = .ok place := by
  unfold locate at h
  split at h
  · cases h
  · exact h

/-- A path leads on to where it led if the folders are the same. -/
theorem SameFolders.locate (h : SameFolders d e) (hlocate : d.locate path = .ok place) :
    e.locate path = .ok place := by
  have hfollow := h.follow (follow_of_locate hlocate)
  have horigin : e.origin path.toList = d.origin path.toList := by
    unfold origin
    split
    · rfl
    · exact h.working
  unfold Directory.locate at hlocate ⊢
  split at hlocate
  · cases hlocate
  · next hpath =>
    rw [if_neg hpath, horigin]
    exact hfollow

/-! ## Folders above -/

/-- All places above this one are folders. -/
def Anchored (d : Directory) (place : Place) : Prop :=
  ∀ above, above <+: place → above ≠ place → d.isFolder above = true

theorem anchored_origin (d : Directory) (path : List Char) : d.Anchored (d.origin path) := by
  intro above habove hne
  unfold origin at habove hne
  split at habove
  · exact absurd (List.prefix_nil.mp habove) hne
  · simp [isFolder, habove]

/-- The folder that holds a folder is one. -/
theorem Anchored.isFolder_up (h : d.Anchored here) (hhere : d.isFolder here = true) :
    d.isFolder (up here) = true := by
  by_cases hroot : up here = here
  · rwa [hroot]
  · exact h (up here) (List.dropLast_prefix here) hroot

theorem Anchored.step (h : d.Anchored here) (hhere : d.isFolder here = true) (name : String) :
    d.Anchored (step here name) := by
  unfold Directory.step
  split
  · exact h
  · split
    · intro above habove hne
      by_cases heq : above = here
      · rwa [heq]
      · exact h above (habove.trans (List.dropLast_prefix here)) heq
    · intro above habove hne
      obtain heq | habove := List.prefix_concat_iff.mp habove
      · exact absurd heq hne
      · by_cases heq : above = here
        · rwa [heq]
        · exact h above habove heq

theorem Anchored.follow (h : d.Anchored here) {front : List String}
    (hfollow : d.follow here front = .ok place) : d.Anchored place := by
  induction front generalizing here with
  | nil =>
    cases hfollow
    exact h
  | cons name front ih =>
    obtain ⟨hhere, hrest⟩ := follow_cons.mp hfollow
    exact ih (h.step hhere name) hrest

/-- A name that does not lead to a folder is the name of an entry. -/
theorem Anchored.step_eq (h : d.Anchored here) (hhere : d.isFolder here = true) {name : String}
    (hfile : d.isFolder (Directory.step here name) = false) :
    Directory.step here name = here ++ [name] ∧ name ≠ ".." := by
  unfold Directory.step at hfile ⊢
  split at hfile
  case isTrue => simp [hhere] at hfile
  case isFalse hself =>
    rw [if_neg hself]
    split at hfile
    case isTrue => simp [h.isFolder_up hhere] at hfile
    case isFalse hparent => exact ⟨if_neg hparent, hparent⟩

/-- Paths that name one folder start at the same place. -/
theorem origin_append {folder name name' : List Char} (hfolder : IsFront folder)
    (hname : '/' ∉ name) (hname' : '/' ∉ name') :
    d.origin (folder ++ name) = d.origin (folder ++ name') := by
  have hworking {name : List Char} (hname : '/' ∉ name) : d.origin name = d.working := by
    unfold origin
    split
    · exact absurd List.mem_cons_self hname
    · rfl
  obtain rfl | ⟨front, rfl⟩ := hfolder
  · rw [List.nil_append, List.nil_append, hworking hname, hworking hname']
  · cases front with
    | nil => rfl
    | cons c front =>
      by_cases hc : c = '/'
      · rw [hc]
        rfl
      · simp [origin, hc]

/-- Paths in one folder that lead to the same file have the same last name. -/
theorem name_eq_of_locate {folder name name' : List Char} {path' : String}
    (hfolder : IsFront folder) (hname : '/' ∉ name) (hname' : '/' ∉ name')
    (hpath : path.toList = folder ++ name) (hpath' : path'.toList = folder ++ name')
    (h : d.locate path = .ok place) (h' : d.locate path' = .ok place)
    (hfile : d.isFolder place = false) :
    name = name' ∧ name ≠ ['.', '.'] := by
  obtain ⟨above, habove⟩ := hfolder.exists_names
  -- Both paths lead to one folder first.
  have hlast {path : String} {name : List Char} (hname : '/' ∉ name)
      (hpath : path.toList = folder ++ name) (h : d.locate path = .ok place) :
      ∃ here, d.follow (d.origin (folder ++ name)) (above.map String.ofList) = .ok here ∧
        place = here ++ [String.ofList name] ∧ String.ofList name ≠ ".." := by
    have hfollow := follow_of_locate h
    rw [hpath, habove name hname, List.map_append] at hfollow
    obtain ⟨here, hhere, hstep⟩ := follow_append.mp hfollow
    obtain ⟨hfolder, hplace⟩ := follow_cons.mp hstep
    cases hplace
    exact ⟨here, hhere, ((anchored_origin d _).follow hhere).step_eq hfolder hfile⟩
  obtain ⟨here, hhere, hplace, hparent⟩ := hlast hname hpath h
  obtain ⟨here', hhere', hplace', -⟩ := hlast hname' hpath' h'
  rw [origin_append hfolder hname' hname, hhere] at hhere'
  cases hhere'
  rw [hplace, List.append_cancel_left_eq, List.singleton_inj] at hplace'
  refine ⟨by simpa using congrArg String.toList hplace', ?_⟩
  rintro rfl
  exact hparent rfl

/-! ## Reading and writing -/

theorem read_of_find? {bytes : ByteArray} (hlocate : d.locate path = .ok place)
    (hfind : d.find? place = some bytes) : d.read path = .ok bytes := by
  simp only [read, hlocate, hfind, bind, Except.bind, pure, Except.pure]

theorem exists_of_readText {text : String} (h : d.readText path = .ok text) :
    ∃ place bytes, d.locate path = .ok place ∧ d.find? place = some bytes := by
  unfold readText read at h
  cases hlocate : d.locate path with
  | error refusal => simp [hlocate, bind, Except.bind] at h
  | ok place =>
    cases hfind : d.find? place with
    | none => simp [hlocate, hfind, bind, Except.bind, throw, throwThe, MonadExceptOf.throw] at h
    | some bytes => exact ⟨place, bytes, rfl, hfind⟩

theorem exists_of_write {bytes : ByteArray} (h : d.write path bytes = .ok e) :
    ∃ place, d.locate path = .ok place ∧ d.isFolder place = false ∧ SameFolders d e ∧
      ∀ other, e.find? other = if other = place then some bytes else d.find? other := by
  unfold write at h
  cases hlocate : d.locate path with
  | error refusal => simp [hlocate, bind, Except.bind] at h
  | ok place =>
    simp only [hlocate, bind, Except.bind] at h
    split at h
    case isTrue => cases h
    case isFalse hfolder =>
      cases h
      refine ⟨place, rfl, Bool.eq_false_iff.mpr hfolder, ⟨rfl, rfl⟩, fun other => ?_⟩
      simp only [find?, List.lookup_append, lookup_filter_ne]
      by_cases hother : other = place
      · simp [hother]
      · simp [hother, List.lookup_cons, beq_eq_false_iff_ne.mpr hother]

end Directory

/-! ## Extensions -/

section extension

variable {path extension : String} {name stem : List Char}

/-- A path up to its last slash. -/
def folderOf (path : String) : List Char :=
  (path.toList.reverse.dropWhile (· != '/')).reverse

/-- What a path has behind its last slash. -/
def lastName (path : String) : List Char :=
  (path.toList.reverse.takeWhile (· != '/')).reverse

theorem folderOf_append_lastName (path : String) :
    folderOf path ++ lastName path = path.toList := by
  rw [folderOf, lastName, ← List.reverse_append, List.takeWhile_append_dropWhile,
    List.reverse_reverse]

theorem isFront_folderOf (path : String) : Directory.IsFront (folderOf path) := by
  unfold folderOf
  cases hfolder : path.toList.reverse.dropWhile (· != '/') with
  | nil => exact .inl rfl
  | cons c front =>
    have hslash := List.head?_dropWhile_not (· != '/') path.toList.reverse
    rw [hfolder] at hslash
    have hc : c = '/' := by simpa using hslash
    exact .inr ⟨front.reverse, by rw [List.reverse_cons, hc]⟩

theorem not_mem_lastName (path : String) : '/' ∉ lastName path := by
  intro h
  have hslash := List.mem_takeWhile_imp (List.mem_reverse.mp h)
  simp at hslash

/-- A name with another extension. -/
def renamed (name extension : List Char) : List Char :=
  match stem? name with
  | none => name ++ '.' :: extension
  | some ['.'] => ['.', '.']
  | some stem => stem ++ '.' :: extension

/-- A path with another extension leads to an entry beside the old one. -/
theorem toList_withExtension (path extension : String) :
    (withExtension path extension).toList =
      folderOf path ++ renamed (lastName path) extension.toList := by
  unfold withExtension renamed
  simp only
  rw [← lastName, ← folderOf]
  cases stem? (lastName path) with
  | none =>
    simp only [String.toList_append]
    rw [← folderOf_append_lastName path]
    simp
  | some stem =>
    by_cases hpoint : stem = ['.']
    · subst hpoint
      simp
    · simp

theorem stem?_eq_some (h : stem? name = some stem) :
    stem ≠ [] ∧ ∃ rest, name = stem ++ '.' :: rest := by
  unfold stem? at h
  split at h
  case h_2 => cases h
  case h_1 c front hdrop =>
    split at h
    case isTrue => cases h
    case isFalse hfront =>
      cases h
      have hpoint := List.head?_dropWhile_not (· != '.') name.reverse
      rw [hdrop] at hpoint
      have hc : c = '.' := by simpa using hpoint
      have hname := congrArg List.reverse
        (List.takeWhile_append_dropWhile (p := (· != '.')) (l := name.reverse))
      rw [hdrop, List.reverse_reverse, List.reverse_append, List.reverse_cons, hc,
        List.append_assoc] at hname
      exact ⟨by simpa using hfront, _, hname.symm⟩

theorem not_mem_renamed {extension : List Char} (hname : '/' ∉ name)
    (hextension : '/' ∉ extension) : '/' ∉ renamed name extension := by
  unfold renamed
  split
  case h_1 => simp [hname, hextension]
  case h_2 => decide
  case h_3 stem _ hstem =>
    obtain ⟨-, rest, rfl⟩ := stem?_eq_some hstem
    rw [List.mem_append, not_or] at hname
    simp [hname.1, hextension]

/-- Different extensions make different names, unless the name of the parent comes out. -/
theorem renamed_inj {extension extension' : List Char}
    (h : renamed name extension = renamed name extension')
    (hparent : renamed name extension ≠ ['.', '.']) : extension = extension' := by
  unfold renamed at h hparent
  split at h
  case h_1 => simpa using h
  case h_2 hstem => simp [hstem] at hparent
  case h_3 => simpa using h

/-- A name keeps its extension only if it had it. -/
theorem eq_of_renamed_eq {extension : List Char} (h : renamed name extension = name)
    (hparent : name ≠ ['.', '.']) :
    ∃ stem, stem ≠ [] ∧ stem ≠ ['.'] ∧ name = stem ++ '.' :: extension := by
  unfold renamed at h
  split at h
  case h_1 => simp at h
  case h_2 => exact absurd h.symm hparent
  case h_3 stem hpoint hstem =>
    exact ⟨stem, (stem?_eq_some hstem).1, fun he => hpoint he, h.symm⟩

/-- The last name of the path is a stem and, behind a point, the extension. -/
def Bears (path extension : String) : Prop :=
  ∃ folder stem : List Char, path.toList = folder ++ (stem ++ '.' :: extension.toList) ∧
    Directory.IsFront folder ∧ stem ≠ [] ∧ stem ≠ ['.'] ∧ '/' ∉ stem

variable {d : Directory} {place : Place}

/-- If another extension does not lead to another file, the path has the extension already. -/
theorem bears_of_locate (hextension : '/' ∉ extension.toList) (h : d.locate path = .ok place)
    (h' : d.locate (withExtension path extension) = .ok place)
    (hfile : d.isFolder place = false) : Bears path extension := by
  have hname := not_mem_lastName path
  obtain ⟨hsame, hparent⟩ := Directory.name_eq_of_locate (isFront_folderOf path) hname
    (not_mem_renamed hname hextension) (folderOf_append_lastName path).symm
    (toList_withExtension path extension) h h' hfile
  obtain ⟨stem, hstem, hpoint, hlast⟩ := eq_of_renamed_eq hsame.symm hparent
  refine ⟨folderOf path, stem, ?_, isFront_folderOf path, hstem, hpoint, ?_⟩
  · rw [← hlast, folderOf_append_lastName]
  · rw [hlast, List.mem_append, not_or] at hname
    exact hname.1

/-- Two extensions lead to two files, or to a folder. -/
theorem isFolder_of_locate {extension' : String} (hextension : '/' ∉ extension.toList)
    (hextension' : '/' ∉ extension'.toList) (hne : extension ≠ extension')
    (h : d.locate (withExtension path extension) = .ok place)
    (h' : d.locate (withExtension path extension') = .ok place) : d.isFolder place = true := by
  cases hfile : d.isFolder place with
  | true => rfl
  | false =>
    have hname := not_mem_lastName path
    obtain ⟨hsame, hparent⟩ := Directory.name_eq_of_locate (isFront_folderOf path)
      (not_mem_renamed hname hextension) (not_mem_renamed hname hextension')
      (toList_withExtension path extension) (toList_withExtension path extension') h h' hfile
    exact absurd (String.toList_inj.mp (renamed_inj hsame hparent)) hne

end extension

end LineScript.Command
