import Isel.Settings.Feature
import Isel.Settings.Warning

/-!
# Configuration

What a compilation can be told: features, warnings, the profile that was applied
last, and the target with its word size and word type.
-/

namespace Isel.Settings

/-- A configuration, a new one unless it says otherwise. -/
structure Config where
  features : Switches := .ofInfos Feature.infos
  warnings : Switches := .ofInfos Warning.infos
  profile : String := ""
  target : String := ""
  wordSize : Int := 8
  wordType : String := "l"
  deriving DecidableEq, Repr

namespace Config

def uses (c : Config) (f : Feature) : Bool := c.features.isOn f.number

def warns (c : Config) (w : Warning) : Bool := c.warnings.isOn w.number

def withFeature (c : Config) (number : Int) (on : Bool) : Config :=
  { c with features := c.features.set on number }

def withWarning (c : Config) (number : Int) (on : Bool) : Config :=
  { c with warnings := c.warnings.set on number }

/-! ## Profiles -/

structure UnknownProfile where
  name : String
  deriving DecidableEq, Repr

def UnknownProfile.message (e : UnknownProfile) : String :=
  "unsupported profile '" ++ e.name ++ "'. Supported: 'reference', 'tosc'"

/-- A feature with its switch in the reference profile and in the other one. -/
structure ProfileSetting where
  feature : Feature
  reference : Bool
  tosc : Bool
  deriving DecidableEq, Repr

def profileSettings : List ProfileSetting :=
  [⟨.forwardCalls, false, true⟩, ⟨.directionalOps, false, true⟩, ⟨.dedupLiterals, false, true⟩,
    ⟨.stackConvention, false, true⟩]

/-- Switches the features that profiles speak of. -/
def withSettings (c : Config) (value : ProfileSetting → Bool) : Config :=
  profileSettings.foldl (fun c s => c.withFeature s.feature.number (value s)) c

/-- Applies a profile.  Its name is kept even if there is no such profile. -/
def withProfile (c : Config) (name : String) : Config × Except UnknownProfile Unit :=
  let c := { c with profile := name }
  match name with
  | "reference" =>
    ((c.withSettings ProfileSetting.reference).withWarning Warning.ambiguousOp.number true, .ok ())
  | "tosc" => (c.withSettings ProfileSetting.tosc, .ok ())
  | _ => (c, .error ⟨name⟩)

/-! ## Targets -/

/-- Word size and word type of a known target. -/
def targetWord? : String → Option (Int × String)
  | "amd64_sysv" | "amd64_apple" | "arm64" | "arm64_apple" | "rv64" => some (8, "l")
  | "arm" | "rv32" => some (4, "w")
  | _ => none

def unknownTargetNotice (target : String) : String :=
  "tosc: warning: unrecognized or unsupported QBE target '" ++ target ++ "'.\n" ++
    "tosc: warning: defaulting to 64-bit properties. Compilation may fail.\n"

/-- Sets the target and gives the notice printed on the way.  Without a name it is the
one that `platform` has for the operating system and the architecture.  An unknown
target gets 64-bit words. -/
def withTarget (c : Config) (platform : String → String → String) (os arch target : String) :
    Config × String :=
  let name := if target = "" then platform os arch else target
  match targetWord? name with
  | some (size, type) => ({ c with target := name, wordSize := size, wordType := type }, "")
  | none => ({ c with target := name, wordSize := 8, wordType := "l" }, unknownTargetNotice name)

end Config

end Isel.Settings
