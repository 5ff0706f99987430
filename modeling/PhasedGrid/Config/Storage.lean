import PhasedGrid.Config.Layers
import PhasedGrid.Config.Writing
import PhasedGrid.Files

/-!
Settings in files: where they are looked for, how they are loaded and saved.
-/

namespace PhasedGrid.Config

set_option autoImplicit false

def fileName : String := "dgi-broker.toml"

/-- The folder for the settings of a user. An override that is not an absolute path does not count. -/
def userFolder? (home override : Option String) : Option String :=
  let base := match override.filter (·.startsWith "/") with
    | some folder => some folder
    | none => home.map (· ++ "/.config")
  base.map (· ++ "/dgi-broker")

/-- The paths where a file is looked for: in the working folder, then in the folder of the user. -/
def candidates (working : String) (home override : Option String) : List String :=
  (working :: (userFolder? home override).toList).map (· ++ "/" ++ fileName)

/-- Settings from a file, if a path is given, and the environment. -/
def loadFile (files : Files) (path : Option String) (environment : List (String × String)) :
    Except ConfigError Settings :=
  match path with
  | none => load none environment
  | some path =>
    match files.look path with
    | .nothing => .error (.missingFile path)
    | .folder => .error .badSource
    | .document text => load (some text) environment

/-- Saves admitted settings. The folder is made before the document is written down, so a folder
that cannot be made is what counts first. -/
def save (s : Settings) (files : Files) (path : String) : Except ConfigError Files := do
  let s ← s.admitted
  if !files.canHold path then throw .cannotWrite
  let text ← render s
  (files.write? path text).elim (.error .cannotWrite) .ok

end PhasedGrid.Config
