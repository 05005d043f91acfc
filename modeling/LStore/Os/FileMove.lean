import LStore.Base.PathMap

/-!
# Moving an object in the file-based object service

The service keeps an object at its own path below `file_path` and the attributes of a file or
symlink in a directory of their own: `dir/base` goes with `dir/_^FA^_/_^FA^_base`. The attributes
of a directory are in its subdirectory `_^FA^_`. Paths are lists of names and a symlink is a leaf
of the tree. The file system is the table of its entries; the root always exists.
-/

namespace LStore.Os.File

open PathMap

/-- A path below `file_path`. -/
abbrev Path := List String

/-- What stands at a path; `β` is the content of a regular file. -/
inductive Node (β : Type*) where
  | file (content : β)
  | symlink (target : String)
  | dir
  deriving DecidableEq

/-- The entries of the file system below `file_path`. -/
abbrev Fs (β : Type*) := List (Path × Node β)

/-- `FILE_ATTR_PREFIX`. -/
def fileAttr : String := "_^FA^_"

variable {β : Type*}

/-- What `lio_os_local_filetype` looks at; the root is a directory. -/
def lookup (fs : Fs β) (p : Path) : Option (Node β) :=
  if p = [] then some .dir else find fs p

/-- `ftype & (OS_OBJECT_FILE_FLAG|OS_OBJECT_SYMLINK_FLAG)`. -/
def Node.isFile : Node β → Bool
  | .dir => false
  | _ => true

/-- The attribute directory that goes with a file or symlink. -/
def attrDir (p : Path) : Path := p.dropLast ++ [fileAttr, fileAttr ++ p.getLastD ""]

/-- `"%s_dmv_%u"`, the name under which an old destination is moved aside. -/
def asideName (p : Path) (ui : Nat) : Path :=
  p.dropLast ++ [p.getLastD "" ++ "_dmv_" ++ toString ui]

/-- Whether a directory has the entry `p` right below it. -/
def isChild (d p : Path) : Bool := decide (p ≠ [] ∧ p.dropLast = d)

/-- Whether a directory has any entry. -/
def hasChild (fs : Fs β) (d : Path) : Bool := fs.any fun e => isChild d e.1

/-- `rename`: the source exists, the directory of the target exists, the target is not inside the
source, and a target that exists may be replaced only by one of its own kind, a directory only if
it is empty. -/
def rename (fs : Fs β) (s d : Path) : Option (Fs β) :=
  if s = [] ∨ d = [] then none
  else
    match lookup fs s, lookup fs d.dropLast with
    | some n, some .dir =>
      if s = d then some fs
      else if s <+: d then none
      else
        match lookup fs d with
        | none => some (move s d fs)
        | some old =>
          if n.isFile = old.isFile ∧ hasChild fs d = false then some (move s d (erase d fs))
          else none
    | _, _ => none

/-- `remove`: a directory goes only when it is empty. -/
def remove (fs : Fs β) (p : Path) : Fs β :=
  match lookup fs p with
  | none => fs
  | some .dir => if p = [] ∨ hasChild fs p then fs else erase p fs
  | some _ => erase p fs

/-- One entry of the loop of `osf_purge_dir`: files and symlinks go, and directories as well when
there is depth left. -/
def purgeEntry (purge : Fs β → Path → Fs β) (deeper : Bool) (fs : Fs β) (p : Path) : Fs β :=
  match lookup fs p with
  | none => fs
  | some .dir => if deeper then remove (purge fs p) p else fs
  | some _ => remove fs p

/-- `osf_purge_dir`. -/
def osfPurgeDir : (depth : Nat) → Fs β → Path → Fs β
  | 0, fs, d => ((fs.map Prod.fst).filter (isChild d)).foldl (purgeEntry (fun fs _ => fs) false) fs
  | depth + 1, fs, d =>
    ((fs.map Prod.fst).filter (isChild d)).foldl (purgeEntry (osfPurgeDir depth) true) fs

/-- `osf_object_remove`, without hard links. -/
def osfObjectRemove (fs : Fs β) (p : Path) : Fs β :=
  match lookup fs p with
  | some .dir =>
    let fs := osfPurgeDir 0 fs p
    let fs := osfPurgeDir 1 fs (p ++ [fileAttr])
    let fs := remove fs (p ++ [fileAttr])
    remove fs p
  | _ =>
    let fs := remove fs p
    let fs := osfPurgeDir 0 fs (attrDir p)
    remove fs (attrDir p)

/-- `osf_is_dir_empty`: nothing but the attribute directory. -/
def osfIsDirEmpty (fs : Fs β) (d : Path) : Bool :=
  fs.all fun e => !(isChild d e.1 && decide (e.1 ≠ d ++ [fileAttr]))

/-- What the call does not decide: which forward renames the system lets fail, the random numbers,
and the lock slot of each path. -/
structure Env where
  fails : Nat → Bool
  rand : Nat → Nat
  slot : Path → Nat

/-- The file system, the number of forward renames made and of random numbers drawn. -/
structure State (β : Type*) where
  fs : Fs β
  calls : Nat
  draws : Nat

/-- A `rename` call of `osf_move_object`; one made to undo something does not fail of itself. -/
def tryRename (env : Env) (undo : Bool) (s d : Path) (st : State β) : Bool × State β :=
  let st' : State β := if undo then st else { st with calls := st.calls + 1 }
  if undo = false ∧ env.fails st.calls then (false, st')
  else
    match rename st.fs s d with
    | some fs => (true, { st' with fs := fs })
    | none => (false, st')

/-- The part of `osf_move_object` that renames the entry and, for a file or symlink, its attribute
directory, undoing the first when the second fails. -/
def moveEntry (env : Env) (undo : Bool) (src dest : Path) (st : State β) : Bool × State β :=
  match tryRename env undo src dest st with
  | (false, st₁) => (false, st₁)
  | (true, st₁) =>
    match lookup st.fs src with
    | none => (true, st₁)
    | some n =>
      if n.isFile then
        match tryRename env undo (attrDir src) (attrDir dest) st₁ with
        | (true, st₂) => (true, st₂)
        | (false, st₂) => (false, (tryRename env true dest src st₂).2)
      else (true, st₁)

/-- `osfile_remove_object_fn` on a path. The slots in `held` are locked by the caller and the
locks are not recursive, so a slot among them is never obtained. -/
def osfileRemoveObject (env : Env) (held : List Nat) (p : Path) (st : State β) : Option (State β) :=
  if env.slot p ∈ held then none
  else
    match lookup st.fs p with
    | none => some st
    | some .dir =>
      if osfIsDirEmpty st.fs p then some { st with fs := osfObjectRemove st.fs p } else some st
    | some _ => some { st with fs := osfObjectRemove st.fs p }

/-- `osf_move_object`; `none` when it does not return. The outcome tells whether it reports
success. `undo` marks the call that moves the old destination back. -/
def osfMoveObject (env : Env) (held : List Nat) :
    (fuel : Nat) → (undo : Bool) → (src dest : Path) → State β → Option (Bool × State β)
  | 0, _, _, _, _ => none
  | fuel + 1, undo, src, dest, st =>
    match lookup st.fs dest with
    | none => some (moveEntry env undo src dest st)
    | some _ =>
      let aside := asideName dest (env.rand st.draws)
      match osfMoveObject env held fuel undo dest aside { st with draws := st.draws + 1 } with
      | none => none
      | some (false, st) => some (false, st)
      | some (true, st) =>
        match moveEntry env undo src dest st with
        | (true, st) => (osfileRemoveObject env held aside st).map fun st => (true, st)
        | (false, st) =>
          (osfMoveObject env held fuel true aside dest st).map fun r => (false, r.2)

/-- The slots a locking call holds while it works. -/
def heldSlots (env : Env) (src dest : Path) : List Nat := [env.slot src, env.slot dest]

end LStore.Os.File
