import EpsilonAutomata.Value.Written

/-!
# Version

The version of the library, in parts and as text.
-/

namespace EpsilonAutomata.Version

/-- The parts of the version: release, feature, build. -/
def parts : List Nat := [1, 0, 0]

/-- The version as text, with or without its build number; tags after the third part, of which there
are none at present, belong to the build. -/
def text (build tags : Bool) : String :=
  let shown := (parts.take (if build then 3 else 2)).map fun n : Nat => Value.writtenInt n
  let extra := if build && tags then (parts.drop 3).map fun n : Nat => Value.writtenInt n else []
  ".".intercalate shown ++ String.join extra

end EpsilonAutomata.Version
