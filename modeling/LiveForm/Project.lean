import LiveForm.Settings
import LiveForm.Toml.Reader

/-!
# The configuration of a project

The settings of a project stand in a section of the nearest configuration file at or above a
directory.  Only the nearest file counts, whether it has the section or not.
-/

namespace LiveForm.Project

/-- The name of a configuration file. -/
def configName : String := "pyproject.toml"

/-- Where the configuration of the project around a directory may be, nearest first.  A directory
is given by its names from the root on. -/
def candidates (directory : List String) : List (List String) :=
  (List.range (directory.length + 1)).reverse.map fun n => directory.take n ++ [configName]

/-- The settings that a configuration file holds. -/
def readSettings (source : String) : Except SettingsError Settings :=
  match Toml.read source with
  | .ok es => Settings.ofProject (.table es)
  | .error .malformed => .error .unreadable
  | .error .tooManyDigits => .error .tooManyDigits

/-- The settings in the nearest configuration file; defaults where there is none. -/
def settings (nearest : Option String) : Except SettingsError Settings :=
  match nearest with
  | none => .ok {}
  | some source => readSettings source

end LiveForm.Project
