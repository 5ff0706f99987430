import PhasedGrid.Text.Blank

/-!
The revision that a build is stamped with.
-/

namespace PhasedGrid.Release

set_option autoImplicit false

/-- What asking the repository for its revision comes to: the exit code, and the output if it is
text. -/
structure Inquiry where
  code : Nat
  output : Option String
  deriving DecidableEq, Repr

def unknownRevision : String := "unknown"

/-- The revision of a build. One that is given counts as it stands; else the repository is asked. -/
def revision (given : Option String) (inquiry : Option Inquiry) : String :=
  match given with
  | some r => r
  | none =>
    match inquiry with
    | some ⟨0, some output⟩ => Text.trim output
    | _ => unknownRevision

/-- What the build is told: on which changes to start again, and the revision. -/
def directives (inRepository : Bool) (revision : String) : List String :=
  ["cargo:rerun-if-changed=build.rs", "cargo:rerun-if-env-changed=DGI_GIT_HASH"]
    ++ (if inRepository then
      ["cargo:rerun-if-changed=.git/HEAD", "cargo:rerun-if-changed=.git/index"] else [])
    ++ ["cargo:rustc-env=GIT_HASH=" ++ revision]

/-- What the program says about itself. -/
def versionLine (revision : String) : String := "dgi-broker v0.2.0 (" ++ revision ++ ")"

end PhasedGrid.Release
