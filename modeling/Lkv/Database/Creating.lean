/-
# Lkv.Database.Creating — a database file gets its name

`create_database_file` (`database/mod.rs`) writes a new database under a temporary name, links
it to its own name, and removes the temporary one.  `FileSystem` are the names in front of the
files; each call takes one `Fault`, and a call that fails has done nothing.  Paths are raw text:
the temporary path is the target with a text pushed onto it, which for a target that ends in a
separator is a name inside of that directory.

Up to the link a failure leaves the target as it was, and whether the link is made can be told
from the names in use and the failures to come (`wp_linkCreation`, `Links`).  The calls behind
the link can fail too, and then the target stays although an error is returned.  Syncing the
parent is one of them: the parent of a bare file name is the empty path, which cannot be opened,
so that creating a database by a bare name always fails this way.  `creation_all_or_nothing_iff`
says when a creation does all or nothing.
-/
import Lkv.Database.Calls
import Lkv.Theory.Path

namespace Lkv
open Lkv.Theory Lkv.Theory.Prog

set_option autoImplicit false

/-! ## Names -/

/-- A name in a directory. -/
structure FileName where
  directory : Nat
  name : List Char
  deriving DecidableEq

/-- What a path asks for. -/
inductive Place where
  /-- The way there does not exist, or the system cannot be asked for it. -/
  | missing
  /-- A directory, by its own name or from within. -/
  | directory
  | file (name : FileName)
  deriving DecidableEq

/-- The names, the files they stand for, and what the environment does to the next calls. -/
structure FileSystem where
  /-- The directories, which nothing here makes or removes. -/
  directory : Path.Route → Option Nat
  names : FileName → Option Nat
  contents : Nat → File
  /-- The number of the next file. -/
  fresh : Nat
  /-- `process::id()`. -/
  process : Nat
  /-- `NEXT_CREATION_FILE`. -/
  creations : UInt64
  faults : List Fault
  named : ∀ name file, names name = some file → file < fresh

abbrev Fs (α : Type) := Prog FileSystem Stop α

namespace FileSystem

/-- The name stands for this file from now on, or for none. -/
def setName (fs : FileSystem) (name : FileName) (file : Option Nat)
    (known : ∀ number, file = some number → number < fs.fresh) : FileSystem :=
  { fs with
    names := Function.update fs.names name file
    named := by
      intro other number is
      by_cases same : other = name
      · subst same
        rw [Function.update_self] at is
        exact known number is
      · rw [Function.update_of_ne same] at is
        exact fs.named other number is }

def unbind (fs : FileSystem) (name : FileName) : FileSystem := fs.setName name none nofun

/-- A second name for the file that the first one stands for. -/
def link (fs : FileSystem) (old new : FileName) : FileSystem :=
  fs.setName new (fs.names old) (fs.named old)

/-- An empty file with this name. -/
def addFile (fs : FileSystem) (name : FileName) : FileSystem :=
  setName { fs with
    contents := Function.update fs.contents fs.fresh File.empty
    fresh := fs.fresh + 1
    named := fun other file is => (fs.named other file is).trans (Nat.lt_succ_self _) }
    name (some fs.fresh) fun _ is => Option.some.inj is ▸ Nat.lt_succ_self _

def tick (fs : FileSystem) : FileSystem := { fs with faults := fs.faults.tail }

/-- The failure of the next call, if it fails. -/
def due (fs : FileSystem) : Option IoError :=
  match fs.faults with
  | .fail _ error :: _ => some error
  | _ => none

/-- The last piece of a path is looked up where the pieces before it lead.  Nothing is called
`""`, `.` or `..`, and a name with a NUL in it cannot be asked for. -/
def place (fs : FileSystem) (path : Path) : Place :=
  if path.text = [] then .missing
  else match fs.directory (.along path.lead) with
    | none => .missing
    | some directory =>
        if path.name ∈ [[], ['.'], ['.', '.']] then .directory
        else if '\x00' ∈ path.name then .missing
        else .file ⟨directory, path.name⟩

/-- The path of a directory that exists. -/
def leads (fs : FileSystem) (path : Path) : Bool :=
  path.text != [] && (fs.directory (.along path.pieces)).isSome

end FileSystem

/-! ## Calls -/

namespace Fs

variable {α : Type}

/-- A call that fails without effect or does `act`. -/
def call (act : Fs (Except IoError α)) : Fs (Except IoError α) := do
  let error ← (fun fs => (.ok fs.due, fs.tick) : Fs (Option IoError))
  match error with
  | some error => return .error error
  | none => act

/-- `act?`. -/
def question (act : Fs (Except IoError α)) : Fs α := do
  match ← act with
  | .ok a => return a
  | .error error => Prog.stop (.err (.ofIo error))

def noSuchFile : IoError := ⟨.notFound, "No such file or directory"⟩

def fileExists : IoError := ⟨.alreadyExists, "File exists"⟩

def isADirectory : IoError := ⟨.other, "Is a directory"⟩

/-- `OpenOptions::new().read(true).write(true).create_new(true).open(path)`. -/
def createNew (path : Path) : Fs (Except IoError Nat) :=
  call do
    let fs ← Prog.state
    match fs.place path with
    | .missing => return .error noSuchFile
    | .directory => return .error isADirectory
    | .file name =>
        if (fs.names name).isSome then return .error fileExists
        else
          Prog.modify fun fs => fs.addFile name
          return .ok fs.fresh

def removeFile (path : Path) : Fs (Except IoError Unit) :=
  call do
    let fs ← Prog.state
    match fs.place path with
    | .missing => return .error noSuchFile
    | .directory => return .error isADirectory
    | .file name =>
        if (fs.names name).isSome then
          Prog.modify fun fs => fs.unbind name
          return .ok ()
        else return .error noSuchFile

/-- A directory already has the name that it would be given. -/
def hardLink (original link : Path) : Fs (Except IoError Unit) :=
  call do
    let fs ← Prog.state
    match fs.place original with
    | .missing => return .error noSuchFile
    | .directory => return .error isADirectory
    | .file old =>
        if (fs.names old).isNone then return .error noSuchFile
        else match fs.place link with
          | .missing => return .error noSuchFile
          | .directory => return .error fileExists
          | .file new =>
              if (fs.names new).isSome then return .error fileExists
              else
                Prog.modify fun fs => fs.link old new
                return .ok ()

def openDirectory (path : Path) : Fs (Except IoError Unit) :=
  call do
    if (← Prog.state).leads path then return .ok ()
    else return .error noSuchFile

/-- `sync_directory`, except on Windows, where it does nothing. -/
def syncDirectory (path : Path) : Fs Unit := do
  question (openDirectory path)
  question (call (return .ok ()))

/-- A program on an open file. -/
def onFile (file : Nat) (act : Io α) : Fs α :=
  Prog.zoom (fun fs => Disk.ofFile (fs.contents file) fs.faults)
    (fun d fs => { fs with contents := Function.update fs.contents file d.file, faults := d.faults }) act

/-- `if let Err(error) = act { let _ = fs::remove_file(path); return Err(error) }`. -/
def orRemove (path : Path) (act : Fs α) : Fs α := do
  match ← Prog.attempt Stop.error? act with
  | .ok a => return a
  | .error error =>
      let _ ← removeFile path
      Prog.stop (.err error)

end Fs

/-! ## Creating -/

namespace FileSystem

/-- `.creating-{}-{}`. -/
def creationSuffix (process : Nat) (creation : UInt64) : List Char :=
  ".creating-".toList ++ Nat.toDigits 10 process ++ '-' :: Nat.toDigits 10 creation.toNat

def creationPath (path : Path) : Fs Path := do
  let fs ← Prog.state
  Prog.modify fun fs => { fs with creations := fs.creations + 1 }
  return path.push (creationSuffix fs.process fs.creations)

/-- `path.parent().unwrap_or_else(|| Path::new("."))`. -/
def parentOf (path : Path) : Path := path.parent.getD ⟨['.']⟩

/-- The part of an attempt that has a file of its own: lock it, write the database and link it. -/
def linkFile (C : Crates) (path temporary : Path) (file : Nat) : Fs (Path × Nat) := do
  Fs.orRemove temporary (Fs.onFile file lockDatabaseFile)
  Fs.orRemove temporary (Fs.onFile file (initializeFile C))
  match ← Fs.hardLink temporary path with
  | .ok () => return (temporary, file)
  | .error error =>
      if error.kind = .alreadyExists then
        Fs.question (Fs.removeFile temporary)
        Fs.syncDirectory (parentOf path)
        Prog.stop (.err (.ofIo error))
      else
        let _ ← Fs.removeFile temporary
        Prog.stop (.err (.ofIo error))

/-- The attempts of `create_database_file`, up to the link. -/
def linkCreation (C : Crates) (path : Path) : Nat → Fs (Path × Nat)
  | 0 => Prog.stop (.err (.fromIo .alreadyExists "could not allocate a unique database creation file"))
  | attempts + 1 => do
      let temporary ← creationPath path
      match ← Fs.createNew temporary with
      | .error error =>
          if error.kind = .alreadyExists then linkCreation C path attempts
          else Prog.stop (.err (.ofIo error))
      | .ok file => linkFile C path temporary file

/-- What `create_database_file` does behind the link. -/
def finishCreation (path temporary : Path) : Fs Unit := do
  Fs.syncDirectory (parentOf path)
  Fs.question (Fs.removeFile temporary)
  Fs.syncDirectory (parentOf path)

/-- `create_database_file`. -/
def createDatabaseFile (C : Crates) (path : Path) : Fs Nat := do
  let (temporary, file) ← linkCreation C path 16
  finishCreation path temporary
  return file

/-! ## Where the temporary file is -/

variable {fs fs' : FileSystem} {path : Path} {name target : FileName} {process : Nat} {creation : UInt64}

theorem separator_creationSuffix : '/' ∉ creationSuffix process creation := by
  have digits : ∀ n, '/' ∉ Nat.toDigits 10 n := by
    intro n member
    cases Nat.isDigit_of_mem_toDigits (by decide) (by decide) member
  unfold creationSuffix
  rw [List.mem_append, List.mem_append, List.mem_cons, not_or, not_or, not_or]
  exact ⟨⟨by decide, digits _⟩, by decide, digits _⟩

theorem creationSuffix_ne_nil : creationSuffix process creation ≠ [] :=
  List.append_ne_nil_of_right_ne_nil _ (List.cons_ne_nil _ _)

theorem place_congr (same : fs'.directory = fs.directory) : fs'.place = fs.place := by
  funext path
  unfold place
  rw [same]

/-- What it takes for a path to ask for a file. -/
theorem place_eq_file (is : fs.place path = .file name) :
    fs.directory (.along path.lead) = some name.directory ∧ path.name = name.name ∧
      path.name ≠ [] ∧ path.name ≠ ['.'] := by
  unfold place at is
  cases found : fs.directory (.along path.lead) with
  | none =>
      rw [found] at is
      split_ifs at is
  | some directory =>
      rw [found] at is
      dsimp only at is
      split_ifs at is with empty reserved nul
      cases is
      simp only [List.mem_cons, not_or] at reserved
      exact ⟨rfl, rfl, reserved.1, reserved.2.1⟩

/-- The temporary name is another name than the target. -/
theorem creation_ne_target (temporary : fs.place (path.push (creationSuffix process creation)) = .file name)
    (is : fs.place path = .file target) : target ≠ name := by
  rintro rfl
  have longer := (place_eq_file temporary).2.1.trans (place_eq_file is).2.1.symm
  rw [path.name_push separator_creationSuffix] at longer
  exact creationSuffix_ne_nil (List.append_right_eq_self.mp longer)

/-- The parent of a target that asks for a file can be opened unless it is the empty path. -/
theorem leads_parentOf (is : fs.place path = .file target) :
    fs.leads (parentOf path) ↔ parentOf path ≠ ⟨[]⟩ := by
  obtain ⟨found, -, some, proper⟩ := place_eq_file is
  have component : Path.isComponent path.name := by
    unfold Path.isComponent
    simp [some, proper]
  unfold leads parentOf
  rcases Path.parent_of_name component with ⟨-, none⟩ | ⟨parent, isParent, nonempty, route⟩
  · simp [none]
  · rw [isParent, Option.getD_some, route, found]
    have other : parent ≠ ⟨[]⟩ := fun same => nonempty (congrArg Path.text same)
    simp [nonempty, other]

/-! ## When the link is made -/

/-- Nothing has the name that the path asks for. -/
def Free (fs : FileSystem) (path : Path) : Prop :=
  ∃ name, fs.place path = .file name ∧ fs.names name = none

/-- Something has the name that the path asks for. -/
def Used (fs : FileSystem) (path : Path) : Prop :=
  ∃ name, fs.place path = .file name ∧ (fs.names name).isSome

/-- The temporary path of an attempt. -/
def temporary (fs : FileSystem) (path : Path) (attempt : Nat) : Path :=
  path.push (creationSuffix fs.process (fs.creations + .ofNat attempt))

/-- A file is not created because its name is in use, or with a failure that says so. -/
def Refused (fs : FileSystem) (temporary : Path) : Option Fault → Prop
  | some (.fail _ error) => error.kind = .alreadyExists
  | _ => fs.Used temporary

/-- This attempt makes the link: the names of the earlier ones are refused, its own name and the
target are free, and its seventeen calls pass, which create the file, lock it, initialise it and
link it. -/
structure Links (fs : FileSystem) (path : Path) (attempt : Nat) : Prop where
  refused : ∀ i < attempt, fs.Refused (fs.temporary path i) fs.faults[i]?
  unused : fs.Free (fs.temporary path attempt)
  free : fs.Free path
  passing : Passing (fs.faults.drop attempt) 17

theorem passing_succ {n : Nat} :
    Passing fs.faults (n + 1) ↔ Passing fs.faults 1 ∧ Passing fs.tick.faults n := by
  have split := @passing_add fs.faults 1 n
  rwa [List.drop_one, Nat.add_comm] at split

/-- The state in front of the next attempt. -/
def next (fs : FileSystem) : FileSystem := { fs.tick with creations := fs.creations + 1 }

theorem temporary_zero : fs.temporary path 0 = path.push (creationSuffix fs.process fs.creations) := by
  unfold temporary
  rw [show UInt64.ofNat 0 = 0 from rfl, UInt64.add_zero]

theorem temporary_next (attempt : Nat) : fs.next.temporary path attempt = fs.temporary path (attempt + 1) := by
  unfold temporary next tick
  rw [Nat.add_comm, UInt64.ofNat_add, ← UInt64.add_assoc]
  rfl

theorem refused_next {temporary : Path} {fault : Option Fault} :
    fs.next.Refused temporary fault ↔ fs.Refused temporary fault := Iff.rfl

theorem links_succ {attempt : Nat} : fs.Links path (attempt + 1) ↔
    fs.Refused (fs.temporary path 0) fs.faults[0]? ∧ fs.next.Links path attempt := by
  have faults : ∀ i, fs.next.faults[i]? = fs.faults[i + 1]? := fun i => List.getElem?_tail
  have left : fs.next.faults.drop attempt = fs.faults.drop (attempt + 1) := List.drop_tail
  constructor
  · intro links
    refine ⟨links.refused 0 (Nat.succ_pos _), fun i earlier => ?_, ?_, links.free, ?_⟩
    · rw [refused_next, temporary_next, faults]
      exact links.refused (i + 1) (Nat.succ_lt_succ earlier)
    · rw [temporary_next]
      exact links.unused
    · rw [left]
      exact links.passing
  · rintro ⟨first, links⟩
    refine ⟨fun i earlier => ?_, ?_, links.free, left ▸ links.passing⟩
    · cases i with
      | zero => exact first
      | succ i =>
          have later := links.refused i (Nat.succ_lt_succ_iff.mp earlier)
          rwa [refused_next, temporary_next, faults] at later
    · have unused := links.unused
      rwa [temporary_next] at unused

/-- All names but this one stand for what they stood for, and all old files are as they were. -/
structure KeptBut (name : FileName) (fs fs' : FileSystem) : Prop where
  directory : fs'.directory = fs.directory
  names : ∀ other, other ≠ name → fs'.names other = fs.names other
  contents : ∀ file, file < fs.fresh → fs'.contents file = fs.contents file

theorem KeptBut.trans {fs'' : FileSystem} (first : KeptBut name fs fs') (second : KeptBut name fs' fs'')
    (grew : fs.fresh ≤ fs'.fresh) : KeptBut name fs fs'' where
  directory := second.directory.trans first.directory
  names path other := (second.names path other).trans (first.names path other)
  contents file old := (second.contents file (old.trans_le grew)).trans (first.contents file old)

/-- The path asks for what it asked for, and that is what it was. -/
structure Untouched (path : Path) (fs fs' : FileSystem) : Prop where
  directory : fs'.directory = fs.directory
  name : ∀ target, fs.place path = .file target → fs'.names target = fs.names target
  contents : ∀ file, file < fs.fresh → fs'.contents file = fs.contents file

theorem KeptBut.untouched (kept : KeptBut name fs fs')
    (other : ∀ target, fs.place path = .file target → target ≠ name) : Untouched path fs fs' :=
  ⟨kept.directory, fun target is => kept.names target (other target is), kept.contents⟩

end FileSystem

/-! ## Rules -/

namespace Fs
open FileSystem

variable {α : Type} {fs : FileSystem} {path : Path} {name : FileName}
variable {Q : α → FileSystem → Prop} {E : Stop → FileSystem → Prop}

theorem wp_call {act : Fs (Except IoError α)} {Q : Except IoError α → FileSystem → Prop}
    (ok : Passing fs.faults 1 → fs.faults[0]? ∈ [none, some .pass] → wp act Q E fs.tick)
    (failed : ∀ applied error, fs.faults[0]? = some (.fail applied error) → ¬Passing fs.faults 1 →
      Q (.error error) fs.tick) : wp (call act) Q E fs := by
  show wp (match fs.due with
    | some error => return .error error
    | none => act) Q E fs.tick
  unfold due
  cases faults : fs.faults with
  | nil => exact ok (by simp [Passing, faults]) (by simp [faults])
  | cons fault rest =>
      cases fault with
      | pass => exact ok (by simp [Passing, faults]) (by simp [faults])
      | fail applied error =>
          exact wp_pure (failed applied error (by simp [faults]) (by simp [Passing, faults]))

theorem wp_question {act : Fs (Except IoError α)}
    (runs : wp act (fun result fs' => match result with
      | .ok a => Q a fs'
      | .error error => E (.err (.ofIo error)) fs') E fs) : wp (question act) Q E fs := by
  refine wp_bind (wp_mono runs (fun result fs' post => ?_) fun _ _ => id)
  cases result with
  | ok a => exact wp_pure post
  | error error => exact wp_stop post

theorem wp_createNew {Q : Except IoError Nat → FileSystem → Prop}
    (created : ∀ name, fs.place path = .file name → fs.names name = none → Passing fs.faults 1 →
      Q (.ok fs.fresh) (fs.tick.addFile name))
    (failed : ∀ error, (error.kind = .alreadyExists ↔ fs.Refused path fs.faults[0]?) →
      ¬(fs.Free path ∧ Passing fs.faults 1) → Q (.error error) fs.tick) :
    wp (createNew path) Q E fs := by
  refine wp_call (fun passes first => wp_bind (wp_state ?_)) fun applied error first broken =>
    failed error ?_ fun free => broken free.2
  · have place : fs.tick.place path = fs.place path := rfl
    have used : fs.Refused path fs.faults[0]? ↔ fs.Used path := by
      simp only [List.mem_cons, List.not_mem_nil, or_false] at first
      rcases first with first | first <;> rw [first] <;> exact Iff.rfl
    rw [used] at failed
    rw [place]
    unfold Used Free at failed
    cases is : fs.place path with
    | missing => exact wp_pure (failed _ (by simp [noSuchFile, is]) (by simp [is]))
    | directory => exact wp_pure (failed _ (by simp [isADirectory, is]) (by simp [is]))
    | file name =>
        dsimp only
        split
        · rename_i present
          have present : (fs.names name).isSome := present
          exact wp_pure (failed _ (by simp [fileExists, is, present])
            (by simp [is, Option.isSome_iff_ne_none.mp present]))
        · rename_i absent
          exact wp_bind (wp_modify (wp_pure (created name is (Option.not_isSome_iff_eq_none.mp absent) passes)))
  · rw [first]
    exact Iff.rfl

theorem wp_removeFile {Q : Except IoError Unit → FileSystem → Prop} (is : fs.place path = .file name)
    (removed : Passing fs.faults 1 → Q (.ok ()) (fs.tick.unbind name))
    (failed : ∀ error, ¬(Passing fs.faults 1 ∧ (fs.names name).isSome) → Q (.error error) fs.tick) :
    wp (removeFile path) Q E fs := by
  refine wp_call (fun passes _ => wp_bind (wp_state ?_)) fun _ error _ broken =>
    failed error fun passes => broken passes.1
  rw [show fs.tick.place path = .file name from is]
  dsimp only
  split
  · exact wp_bind (wp_modify (wp_pure (removed passes)))
  · rename_i absent
    exact wp_pure (failed _ fun present => absent present.2)

/-- Whether it succeeds or not, removing a file leaves the other names and the contents. -/
theorem wp_removeFile_kept (is : fs.place path = .file name) :
    wp (removeFile path) (fun _ fs' => KeptBut name fs fs') (fun _ _ => False) fs := by
  refine wp_removeFile is (fun _ => ⟨rfl, fun other ne => Function.update_of_ne ne .., fun _ _ => rfl⟩)
    fun _ _ => ⟨rfl, fun _ _ => rfl, fun _ _ => rfl⟩

theorem wp_hardLink {link : Path} {Q : Except IoError Unit → FileSystem → Prop}
    (is : fs.place path = .file name) (present : (fs.names name).isSome)
    (linked : ∀ target, fs.place link = .file target → fs.names target = none → Passing fs.faults 1 →
      Q (.ok ()) (fs.tick.link name target))
    (failed : ∀ error, ¬(fs.Free link ∧ Passing fs.faults 1) → Q (.error error) fs.tick) :
    wp (hardLink path link) Q E fs := by
  refine wp_call (fun passes _ => wp_bind (wp_state ?_)) fun _ error _ broken =>
    failed error fun free => broken free.2
  unfold Free at failed
  rw [show fs.tick.place path = .file name from is, show fs.tick.place link = fs.place link from rfl]
  have here : ¬(fs.tick.names name).isNone = true := by
    rw [Option.isNone_iff_eq_none]
    exact Option.isSome_iff_ne_none.mp present
  dsimp only
  rw [if_neg here]
  cases there : fs.place link with
  | missing => exact wp_pure (failed _ (by simp [there]))
  | directory => exact wp_pure (failed _ (by simp [there]))
  | file target =>
      dsimp only
      split
      · rename_i taken
        refine wp_pure (failed _ ?_)
        rintro ⟨⟨_, same, free⟩, -⟩
        cases there.symm.trans same
        rw [show fs.tick.names target = none from free] at taken
        cases taken
      · rename_i free
        exact wp_bind (wp_modify (wp_pure (linked target there (Option.not_isSome_iff_eq_none.mp free) passes)))

theorem wp_syncDirectory {Q : Unit → FileSystem → Prop}
    (ok : fs.leads path → Passing fs.faults 2 → Q () fs.tick.tick)
    (failed : ∀ error fs', ¬(fs.leads path ∧ Passing fs.faults 2) → fs'.directory = fs.directory →
      fs'.names = fs.names → fs'.contents = fs.contents → E (.err error) fs') :
    wp (syncDirectory path) Q E fs := by
  rw [passing_succ (n := 1)] at ok failed
  refine wp_bind (wp_question (wp_call (fun first _ => wp_bind (wp_state ?_)) fun _ error _ broken =>
    failed _ _ (fun passing => broken passing.2.1) rfl rfl rfl))
  split
  · rename_i leads
    refine wp_pure (wp_question (wp_call (fun second _ => wp_pure (ok leads ⟨first, second⟩))
      fun _ error _ broken => failed _ _ (fun passing => broken passing.2.2) rfl rfl rfl))
  · rename_i nowhere
    exact wp_pure (failed _ _ (fun passing => nowhere passing.1) rfl rfl rfl)

/-- A call that is followed by a removal when it fails. -/
theorem wp_orRemove {act : Fs α} (runs : wp act Q (fun e fs' => (∃ error, e = .err error) ∧
      fs'.place path = .file name ∧ ∀ fs'', KeptBut name fs' fs'' → E e fs'') fs) :
    wp (orRemove path act) Q E fs := by
  refine wp_bind (wp_attempt (wp_mono runs (fun a fs' post => wp_pure post) ?_))
  rintro _ fs' ⟨⟨error, rfl⟩, is, post⟩
  exact wp_bind (wp_mono (wp_removeFile_kept is) (fun _ fs'' kept => wp_stop (post fs'' kept))
    fun _ _ => False.elim)

end Fs

/-! ## Up to the link and behind it -/

namespace FileSystem
open Fs

variable {C : Crates} {fs fs' : FileSystem} {path temporary : Path} {name target : FileName} {file : Nat}

/-- A database image has both names. -/
structure Linked (C : Crates) (target name : FileName) (fs : FileSystem) (file : Nat)
    (fs' : FileSystem) : Prop where
  other : target ≠ name
  new : fs.names name = none
  free : fs.names target = none
  directory : fs'.directory = fs.directory
  names : fs'.names = Function.update (Function.update fs.names name (some file)) target (some file)
  fresh : fs.fresh ≤ file
  image : fs'.contents file = emptyImage C
  contents : ∀ other, other ≠ file → fs'.contents other = fs.contents other

/-- A free name is not refused by a call that passes. -/
theorem not_refused (free : fs.Free temporary) (passing : Passing fs.faults 1) :
    ¬fs.Refused temporary fs.faults[0]? := by
  obtain ⟨name, is, unused⟩ := free
  have notUsed : ¬fs.Used temporary := by
    rintro ⟨_, same, present⟩
    cases is.symm.trans same
    rw [unused] at present
    cases present
  cases faults : fs.faults with
  | nil => exact notUsed
  | cons fault rest =>
      cases passing fault (by simp [faults])
      exact notUsed

theorem wp_creationPath : wp (creationPath path)
    (fun temporary fs' => temporary = fs.temporary path 0 ∧ fs' = { fs with creations := fs.creations + 1 })
    (fun _ _ => False) fs :=
  wp_bind (wp_state (wp_bind (wp_modify (wp_pure ⟨temporary_zero.symm, rfl⟩))))

/-- The state of an attempt between the creation of its file and the link. -/
structure Working (fs : FileSystem) (name : FileName) (fs' : FileSystem) : Prop where
  directory : fs'.directory = fs.directory
  new : fs.names name = none
  names : fs'.names = Function.update fs.names name (some fs.fresh)
  fresh : fs'.fresh = fs.fresh + 1
  contents : ∀ other, other ≠ fs.fresh → fs'.contents other = fs.contents other

theorem Working.kept (working : Working fs name fs') : KeptBut name fs fs' where
  directory := working.directory
  names path other := by rw [working.names, Function.update_of_ne other]
  contents file old := working.contents file old.ne

/-- A program on the new file changes nothing else. -/
theorem wp_work {α : Type} {act : Io α} {n : Nat} {A : α → Disk → Prop} {Q : α → FileSystem → Prop}
    {E : Stop → FileSystem → Prop} (working : Working fs name fs')
    (runs : Io.Counted n act A (Disk.ofFile (fs'.contents fs.fresh) fs'.faults))
    (ok : ∀ a d fs'', A a d → Working fs name fs'' → fs''.contents fs.fresh = d.file →
      Passing fs'.faults n → fs''.faults = fs'.faults.drop n → Q a fs'')
    (failed : ∀ error fs'', ¬Passing fs'.faults n → Working fs name fs'' → E (.err error) fs'') :
    wp (onFile fs.fresh act) Q E fs' := by
  have after : ∀ d : Disk, Working fs name
      { fs' with contents := Function.update fs'.contents fs.fresh d.file, faults := d.faults } := by
    intro d
    refine ⟨working.directory, working.new, working.names, working.fresh, fun other ne => ?_⟩
    dsimp only
    rw [Function.update_of_ne ne]
    exact working.contents other ne
  refine wp_zoom (wp_mono runs ?_ ?_)
  · rintro a d ⟨post, passed, left⟩
    exact ok a d _ post (after d) (Function.update_self ..) passed left
  · rintro _ d ⟨broken, error, rfl⟩
    exact failed error _ broken (after d)

theorem counted_lockDatabaseFile (d : Disk) :
    Io.Counted 1 lockDatabaseFile (fun _ d' => d'.file = d.file) d :=
  Io.counted_nextFault_bind (Io.counted_pure rfl) fun _ _ => wp_stop ⟨_, rfl⟩

/-- With its own file an attempt makes the link if the target is free and sixteen calls pass. -/
theorem wp_linkFile (is : fs.place temporary = .file name)
    (other : ∀ target, fs.place path = .file target → target ≠ name) (working : Working fs name fs')
    (empty : fs'.contents fs.fresh = File.empty) :
    wp (linkFile C path temporary fs.fresh)
      (fun made fs'' => made.1 = temporary ∧ (∃ target, fs.place path = .file target ∧
        Linked C target name fs made.2 fs'') ∧ Passing fs'.faults 16 ∧ fs''.faults = fs'.faults.drop 16)
      (fun e fs'' => (∃ error, e = .err error) ∧ Untouched path fs fs'' ∧
        ¬(fs.Free path ∧ Passing fs'.faults 16)) fs' := by
  have place : ∀ {fs₁ : FileSystem}, Working fs name fs₁ → fs₁.place temporary = .file name := by
    intro fs₁ working
    rw [place_congr working.directory]
    exact is
  -- Whatever is removed under the temporary name, the target is left alone.
  have left : ∀ {fs₁ fs₂ : FileSystem}, Working fs name fs₁ → KeptBut name fs₁ fs₂ →
      Untouched path fs fs₂ := fun working kept =>
    (working.kept.trans kept (by rw [working.fresh]; exact Nat.le_succ _)).untouched other
  have split : Passing fs'.faults 16 ↔ Passing fs'.faults 1 ∧ Passing (fs'.faults.drop 1) 14 ∧
      Passing (fs'.faults.drop 15) 1 := by
    rw [← List.drop_drop (i := 14) (j := 1), ← passing_add, ← passing_add]
  rw [split]
  refine wp_bind (wp_orRemove (wp_work working (counted_lockDatabaseFile _) ?_ fun error fs₁ broken working₁ =>
    ⟨⟨_, rfl⟩, place working₁, fun fs₂ kept => ⟨⟨_, rfl⟩, left working₁ kept, fun all => broken all.2.1⟩⟩))
  intro _ d₁ fs₁ locked working₁ file₁ first faults₁
  rw [locked, Disk.ofFile, empty] at file₁
  have new : (Disk.ofFile (fs₁.contents fs.fresh) fs₁.faults).file = File.empty := file₁
  refine wp_bind (wp_orRemove (wp_work working₁ (counted_initializeFile C new) ?_
    fun error fs₂ broken working₂ => ⟨⟨_, rfl⟩, place working₂, fun fs₃ kept =>
      ⟨⟨_, rfl⟩, left working₂ kept, fun all => broken (faults₁ ▸ all.2.2.1)⟩⟩))
  intro _ d₂ fs₂ image working₂ file₂ second faults₂
  rw [faults₁] at second
  rw [faults₁, List.drop_drop] at faults₂
  have here : fs₂.names name = some fs.fresh := by
    rw [working₂.names, Function.update_self]
  have there : ∀ {target : FileName}, fs.place path = .file target → fs₂.names target = fs.names target := by
    intro target is
    rw [working₂.names, Function.update_of_ne (other target is)]
  have free : fs₂.Free path ↔ fs.Free path := by
    unfold Free
    rw [place_congr working₂.directory]
    exact exists_congr fun target => and_congr_right fun is => by rw [there is]
  refine wp_bind (wp_hardLink (place working₂) (by rw [here]; rfl) (fun target isTarget unused third => ?_)
    fun error broken => ?_)
  · rw [place_congr working₂.directory] at isTarget
    rw [faults₂] at third
    refine wp_pure ⟨rfl, ⟨target, isTarget, other target isTarget, working.new, (there isTarget).symm.trans unused,
      working₂.directory, ?_, le_rfl, ?_, working₂.contents⟩, ⟨first, second, third⟩, ?_⟩
    · show Function.update fs₂.names target (fs₂.names name) = _
      rw [here, working₂.names]
    · exact file₂.trans image
    · show fs₂.faults.tail = _
      rw [faults₂, List.tail_drop]
  · have working₃ : Working fs name fs₂.tick :=
      ⟨working₂.directory, working₂.new, working₂.names, working₂.fresh, working₂.contents⟩
    have unlinked : ¬(fs.Free path ∧ Passing fs'.faults 1 ∧ Passing (fs'.faults.drop 1) 14 ∧
        Passing (fs'.faults.drop 15) 1) := by
      rw [free, faults₂] at broken
      exact fun all => broken ⟨all.1, all.2.2.2⟩
    dsimp only
    split
    · refine wp_bind (wp_question (wp_mono (wp_removeFile_kept (place working₃)) (fun result fs₄ kept => ?_)
        fun _ _ => False.elim))
      cases result with
      | error error => exact ⟨⟨_, rfl⟩, left working₃ kept, unlinked⟩
      | ok _ =>
          refine wp_bind (wp_syncDirectory (fun _ _ => wp_stop ⟨⟨_, rfl⟩, left working₃ ?_, unlinked⟩)
            fun error fs₅ _ directory names contents => ⟨⟨_, rfl⟩, left working₃ ?_, unlinked⟩)
          · exact ⟨kept.directory, kept.names, kept.contents⟩
          · refine ⟨directory.trans kept.directory, fun path other => ?_, fun file old => ?_⟩
            · rw [names]
              exact kept.names path other
            · rw [contents]
              exact kept.contents file old
    · exact wp_bind (wp_mono (wp_removeFile_kept (place working₃)) (fun _ fs₄ kept =>
        wp_stop ⟨⟨_, rfl⟩, left working₃ kept, unlinked⟩) fun _ _ => False.elim)

/-- Until the link is made, a failure leaves the target alone; which attempt makes it, and whether
one does, is told by `Links`. -/
theorem wp_linkCreation (attempts : Nat) :
    wp (linkCreation C path attempts)
      (fun made fs' => ∃ attempt < attempts, fs.Links path attempt ∧ fs'.faults = fs.faults.drop (attempt + 17) ∧
        ∃ target name, fs.place path = .file target ∧ fs.place made.1 = .file name ∧
          Linked C target name fs made.2 fs')
      (fun e fs' => (∃ error, e = .err error) ∧ Untouched path fs fs' ∧
        ∀ attempt < attempts, ¬fs.Links path attempt) fs := by
  induction attempts generalizing fs with
  | zero => exact wp_stop ⟨⟨_, rfl⟩, ⟨rfl, fun _ _ => rfl, fun _ _ => rfl⟩, fun attempt => (Nat.not_lt_zero attempt).elim⟩
  | succ attempts ih =>
      unfold linkCreation
      refine wp_bind (wp_mono wp_creationPath ?_ fun _ _ => False.elim)
      rintro temporary _ ⟨rfl, rfl⟩
      refine wp_bind (wp_createNew (fun name is unused first => ?_) fun error refused notFree => ?_)
      · have is : fs.place (fs.temporary path 0) = .file name := is
        have other : ∀ target, fs.place path = .file target → target ≠ name := fun target isTarget =>
          creation_ne_target is isTarget
        have working : Working fs name ((tick { fs with creations := fs.creations + 1 }).addFile name) :=
          ⟨rfl, unused, rfl, rfl, fun file ne => Function.update_of_ne ne ..⟩
        show wp (linkFile C path (fs.temporary path 0) fs.fresh) _ _ _
        refine wp_mono (wp_linkFile is other working (Function.update_self ..)) ?_ ?_
        · rintro made fs' ⟨isMade, ⟨target, isTarget, linked⟩, rest, faults⟩
          refine ⟨0, Nat.succ_pos _, ⟨nofun, ⟨name, is, unused⟩, ⟨target, isTarget, linked.free⟩,
            passing_succ.mpr ⟨first, rest⟩⟩, faults.trans List.drop_tail, target, name, isTarget, ?_, linked⟩
          rw [isMade]
          exact is
        · rintro e fs' ⟨stopped, untouched, unlinked⟩
          refine ⟨stopped, untouched, fun attempt _ links => ?_⟩
          cases attempt with
          | zero => exact unlinked ⟨links.free, (passing_succ.mp links.passing).2⟩
          | succ attempt => exact not_refused ⟨name, is, unused⟩ first (links_succ.mp links).1
      · have refused : error.kind = .alreadyExists ↔ fs.Refused (fs.temporary path 0) fs.faults[0]? := refused
        have never : ¬fs.Links path 0 := fun links =>
          notFree ⟨links.unused, (passing_succ.mp links.passing).1⟩
        dsimp only
        show wp (if error.kind = .alreadyExists then linkCreation C path attempts else _) _ _ fs.next
        split
        · -- A name that is taken, or a call that says so, leaves everything to the next attempt.
          rename_i exists_
          refine wp_mono (@ih fs.next) ?_ ?_
          · rintro made fs' ⟨attempt, early, links, faults, target, name, isTarget, isName, linked⟩
            exact ⟨attempt + 1, Nat.succ_lt_succ early, links_succ.mpr ⟨refused.mp exists_, links⟩,
              faults.trans List.drop_tail, target, name, isTarget, isName, linked.other, linked.new, linked.free,
              linked.directory, linked.names, linked.fresh, linked.image, linked.contents⟩
          · rintro e fs' ⟨stopped, untouched, unlinked⟩
            refine ⟨stopped, ⟨untouched.directory, untouched.name, untouched.contents⟩, fun attempt early links => ?_⟩
            cases attempt with
            | zero => exact never links
            | succ attempt => exact unlinked attempt (Nat.succ_lt_succ_iff.mp early) (links_succ.mp links).2
        · rename_i other
          refine wp_stop ⟨⟨_, rfl⟩, ⟨rfl, fun _ _ => rfl, fun _ _ => rfl⟩, fun attempt _ links => ?_⟩
          cases attempt with
          | zero => exact never links
          | succ attempt => exact other (refused.mpr (links_succ.mp links).1)

/-- Every call behind the link passes, and the parent can be opened: it is opened and synced, the
temporary name is removed, and the parent is opened and synced again. -/
theorem wp_finishCreation (isTarget : fs.place path = .file target) (is : fs.place temporary = .file name)
    (present : (fs.names name).isSome) :
    wp (finishCreation path temporary)
      (fun _ fs' => (parentOf path ≠ ⟨[]⟩ ∧ Passing fs.faults 5) ∧ fs'.directory = fs.directory ∧
        fs'.names = Function.update fs.names name none ∧ fs'.contents = fs.contents)
      (fun _ fs' => ¬(parentOf path ≠ ⟨[]⟩ ∧ Passing fs.faults 5) ∧ KeptBut name fs fs') fs := by
  have leads := leads_parentOf isTarget
  -- Five calls in three steps.
  have split : Passing fs.faults 5 ↔ Passing fs.faults 2 ∧ Passing fs.tick.tick.faults 1 ∧
      Passing fs.tick.tick.tick.faults 2 := by
    simp only [tick, ← List.drop_one, List.drop_drop]
    rw [passing_add (m := 2) (n := 3), passing_add (m := 1) (n := 2), List.drop_drop]
  rw [← leads, split]
  refine wp_bind (wp_syncDirectory (fun opens first => ?_) fun error fs' broken directory names contents =>
    ⟨fun all => broken ⟨all.1, all.2.1⟩, directory, fun _ _ => by rw [names], fun _ _ => by rw [contents]⟩)
  refine wp_bind (wp_question (wp_removeFile is (fun second => ?_) fun error broken => ?_))
  · dsimp only
    refine wp_syncDirectory (fun _ third => ⟨⟨opens, first, second, third⟩, rfl, rfl, rfl⟩)
      fun error fs' broken directory names contents => ⟨fun all => broken ⟨opens, all.2.2.2⟩, directory, ?_, ?_⟩
    · intro path other
      rw [names]
      exact Function.update_of_ne other ..
    · intro file _
      rw [contents]
      rfl
  · exact ⟨fun all => broken ⟨all.2.2.1, present⟩, rfl, fun _ _ => rfl, fun _ _ => rfl⟩

end FileSystem

/-! ## All or nothing -/

section Creation
open FileSystem

variable {C : Crates} {fs fs' : FileSystem} {path : Path}

/-- An error leaves the target as it was; without one it is a whole database image, the only
name that changed, and no other file was touched. -/
def AllOrNothing (C : Crates) (path : Path) (fs : FileSystem) (result : Except Stop Nat)
    (fs' : FileSystem) : Prop :=
  (∀ e, result = .error e → Untouched path fs fs') ∧
  ∀ file, result = .ok file → ∃ target, fs.place path = .file target ∧ fs'.directory = fs.directory ∧
    fs'.names = Function.update fs.names target (some file) ∧ fs'.contents file = emptyImage C ∧
    ∀ other, other < fs.fresh → fs'.contents other = fs.contents other

/-- Behind the link of this attempt every call passes, and the parent of the target is a path that
can be opened. -/
def Finishes (path : Path) (fs : FileSystem) (attempt : Nat) : Prop :=
  parentOf path ≠ ⟨[]⟩ ∧ Passing (fs.faults.drop (attempt + 17)) 5

/-- Behind the link everything depends on the calls that are left. -/
theorem wp_finishLinked {target name : FileName} {temporary : Path} {file : Nat}
    (isTarget : fs.place path = .file target) (is : fs.place temporary = .file name)
    (linked : Linked C target name fs file fs') :
    wp (do finishCreation path temporary; return file)
      (fun made fs'' => made = file ∧ (parentOf path ≠ ⟨[]⟩ ∧ Passing fs'.faults 5) ∧
        fs''.directory = fs'.directory ∧ fs''.names = Function.update fs'.names name none ∧
        fs''.contents = fs'.contents)
      (fun _ fs'' => ¬(parentOf path ≠ ⟨[]⟩ ∧ Passing fs'.faults 5) ∧ fs''.names target = some file) fs' := by
  rw [← place_congr linked.directory] at isTarget is
  have present : (fs'.names name).isSome := by
    rw [linked.names, Function.update_of_ne linked.other.symm, Function.update_self]
    rfl
  refine wp_bind (wp_mono (wp_finishCreation isTarget is present) (fun _ _ post => wp_pure ⟨rfl, post⟩) ?_)
  rintro e fs'' ⟨broken, kept⟩
  refine ⟨broken, ?_⟩
  rw [kept.names target linked.other, linked.names, Function.update_self]

theorem linked_allOrNothing {target name : FileName} {temporary : Path} {file : Nat}
    (isTarget : fs.place path = .file target) (is : fs.place temporary = .file name)
    (linked : Linked C target name fs file fs') {finish : Fs Nat}
    (does : finish = do finishCreation path temporary; return file) :
    AllOrNothing C path fs (finish fs').1 (finish fs').2 ↔
      parentOf path ≠ ⟨[]⟩ ∧ Passing fs'.faults 5 := by
  have spec := wp_finishLinked isTarget is linked
  rw [← does] at spec
  cases ran : finish fs' with
  | mk result fs'' =>
      cases result with
      | error e =>
          obtain ⟨broken, there⟩ := wp_error spec ran
          refine ⟨fun all => ?_, fun finishes => absurd finishes broken⟩
          -- The target has its new name, and the error denies it.
          have name := (all.1 e rfl).name target isTarget
          rw [there, linked.free] at name
          cases name
      | ok made =>
          obtain ⟨rfl, finishes, directory, names, contents⟩ := wp_ok spec ran
          refine ⟨fun _ => finishes, fun _ => ⟨nofun, ?_⟩⟩
          rintro _ ⟨⟩
          refine ⟨target, isTarget, directory.trans linked.directory, ?_, by rw [contents]; exact linked.image,
            fun other old => ?_⟩
          · funext other
            rw [names, linked.names]
            by_cases isOther : other = target
            · rw [isOther, Function.update_of_ne linked.other, Function.update_self, Function.update_self]
            · by_cases temp : other = name
              · rw [temp, Function.update_self, Function.update_of_ne linked.other.symm, linked.new]
              · rw [Function.update_of_ne temp, Function.update_of_ne isOther, Function.update_of_ne temp,
                  Function.update_of_ne isOther]
          · rw [contents]
            exact linked.contents other (old.trans_le linked.fresh).ne

/-- At most one attempt makes the link. -/
theorem FileSystem.Links.unique {first second : Nat} (one : fs.Links path first) (two : fs.Links path second) :
    first = second := by
  induction first generalizing fs second with
  | zero =>
      cases second with
      | zero => rfl
      | succ second =>
          exact absurd (links_succ.mp two).1 (not_refused one.unused (passing_succ.mp one.passing).1)
  | succ first ih =>
      cases second with
      | zero => exact absurd (links_succ.mp one).1 (not_refused two.unused (passing_succ.mp two.passing).1)
      | succ second => rw [ih (links_succ.mp one).2 (links_succ.mp two).2]

/-- A creation does all or nothing unless one of its attempts makes the link and, behind it, a call
fails or the parent of the target is the empty path. -/
theorem creation_all_or_nothing_iff (C : Crates) (path : Path) (fs : FileSystem) :
    AllOrNothing C path fs (FileSystem.createDatabaseFile C path fs).1
        (FileSystem.createDatabaseFile C path fs).2 ↔
      ∀ attempt < 16, fs.Links path attempt → Finishes path fs attempt := by
  have spec : wp (linkCreation C path 16) _ _ fs := wp_linkCreation 16
  unfold FileSystem.createDatabaseFile
  cases ran : linkCreation C path 16 fs with
  | mk result fs₁ =>
      cases result with
      | error e =>
          rw [bind_error ran]
          obtain ⟨-, untouched, never⟩ := wp_error spec ran
          exact ⟨fun _ attempt early links => absurd links (never attempt early),
            fun _ => ⟨fun _ _ => untouched, nofun⟩⟩
      | ok made =>
          obtain ⟨attempt, early, links, faults, target, name, isTarget, is, linked⟩ := wp_ok spec ran
          rw [bind_ok ran]
          refine (linked_allOrNothing isTarget is linked rfl).trans ?_
          rw [faults]
          refine ⟨fun finishes other _ links' => ?_, fun all => all attempt early links⟩
          cases links.unique links'
          exact finishes

/-- A link that is made and not finished stays, and an error is returned. -/
theorem creation_stays {attempt : Nat} (early : attempt < 16) (links : fs.Links path attempt)
    (broken : ¬Finishes path fs attempt) : ∃ e fs' target,
    FileSystem.createDatabaseFile C path fs = (.error e, fs') ∧ fs.place path = .file target ∧
      fs.names target = none ∧ fs'.names target ≠ none := by
  have spec : wp (linkCreation C path 16) _ _ fs := wp_linkCreation 16
  unfold FileSystem.createDatabaseFile
  cases ran : linkCreation C path 16 fs with
  | mk result fs₁ =>
      cases result with
      | error e => exact absurd links ((wp_error spec ran).2.2 attempt early)
      | ok made =>
          obtain ⟨_, -, links', faults, target, name, isTarget, is, linked⟩ := wp_ok spec ran
          cases links.unique links'
          have finish := wp_finishLinked isTarget is linked
          rw [bind_ok ran]
          cases done : (do finishCreation path made.1; return made.2 : Fs Nat) fs₁ with
          | mk result fs' =>
              cases result with
              | ok file =>
                  have finishes := (wp_ok finish done).2.1
                  rw [faults] at finishes
                  exact absurd finishes broken
              | error e =>
                  refine ⟨e, fs', target, done, isTarget, linked.free, ?_⟩
                  rw [(wp_error finish done).2]
                  exact Option.some_ne_none _

/-- A file system without files, in which no call fails. -/
def noFiles : FileSystem where
  directory route := if route.components = [] then some 0 else none
  names _ := none
  contents _ := File.empty
  fresh := 0
  process := 0
  creations := 0
  faults := []
  named := nofun

/-- The bare name `a`. -/
def bareName : Path := ⟨['a']⟩

/-- Creating a database by a bare name fails although no call is made to fail, and leaves it
under that name. -/
theorem creation_leaves_bare_name : ∃ e fs' target,
    FileSystem.createDatabaseFile zeroHash bareName noFiles = (.error e, fs') ∧
      noFiles.place bareName = .file target ∧ noFiles.names target = none ∧ fs'.names target ≠ none := by
  have isTarget : noFiles.place bareName = .file ⟨0, ['a']⟩ := by decide
  have isTemporary : noFiles.place (noFiles.temporary bareName 0) = .file ⟨0, "a.creating-0-0".toList⟩ := by
    decide
  have links : noFiles.Links bareName 0 :=
    ⟨nofun, ⟨_, isTemporary, rfl⟩, ⟨_, isTarget, rfl⟩, List.forall_mem_nil _⟩
  have bare : parentOf bareName = ⟨[]⟩ := by decide
  exact creation_stays (by decide) links fun finishes => finishes.1 bare

end Creation

end Lkv
