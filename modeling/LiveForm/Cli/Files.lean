import LiveForm.Project

/-!
# Files in memory

A directory whose files are texts, on which commands can run without a disk.  A path is a row of
names; a directory is there if a file is in it.
-/

namespace LiveForm.Cli

/-- Why a file cannot be read or written. -/
inductive FileFault where
  | notFound
  | isDirectory
  /-- Something on the way to it is no directory. -/
  | notDirectory
  | other
  deriving DecidableEq, Repr

/-- The files of a directory. -/
structure Files where
  texts : List (List String × String) := []

namespace Files

/-- The names that a path is made of; the directory itself and the one above it are resolved. -/
def names (path : String) : List String :=
  (path.splitOn "/").foldl (fun names name =>
    if name == "" || name == "." then names
    else if name == ".." then names.dropLast
    else names ++ [name]) []

/-- The files with one put in the place of that of the same path. -/
def put (fs : Files) (path : List String) (text : String) : Files :=
  ⟨fs.texts.filter (·.1 != path) ++ [(path, text)]⟩

/-- The directory with these files. -/
def ofList (files : List (String × String)) : Files :=
  files.foldl (fun fs f => fs.put (names f.1) f.2) {}

/-- The text of a file. -/
def find? (fs : Files) (path : List String) : Option String := fs.texts.lookup path

def isDirectory (fs : Files) (path : List String) : Bool :=
  path.isEmpty || fs.texts.any fun f => path.length < f.1.length && path.isPrefixOf f.1

/-- A file stands on the way to this path. -/
def isBlocked (fs : Files) (path : List String) : Bool :=
  (List.range path.length).any fun n => (fs.find? (path.take n)).isSome

/-- Reads a file; nothing outside of the directory is found. -/
def read (fs : Files) (path : String) : Except FileFault String :=
  if path.startsWith "/" then .error .notFound
  else
    match fs.find? (names path) with
    | some text => .ok text
    | none =>
      if fs.isDirectory (names path) then .error .isDirectory
      else if fs.isBlocked (names path) then .error .notDirectory
      else .error .notFound

/-- Writes a file into a directory that is there. -/
def write (fs : Files) (path text : String) : Except FileFault Files :=
  match fs.read path with
  | .ok _ => .ok (fs.put (names path) text)
  | .error .notFound =>
    if !path.startsWith "/" && fs.isDirectory (names path).dropLast then
      .ok (fs.put (names path) text)
    else .error .notFound
  | .error f => .error f

/-- The path of the configuration file that is nearest to a directory. -/
def config? (fs : Files) (directory : List String) : Option (List String) :=
  (Project.candidates directory).find? fun path => (fs.find? path).isSome

/-- The text of the configuration file that is nearest to a directory. -/
def configText? (fs : Files) (directory : List String) : Option String :=
  (fs.config? directory).bind fs.find?

end Files

end LiveForm.Cli
