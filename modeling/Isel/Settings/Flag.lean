import Isel.Settings.Config
import Isel.Text.Blank

/-!
# Flags

A flag is a text such as `-Wno-imm-range` or `-Fdedup-literals`.  One leading
hyphen is dropped; `W` opens a warning, `F` a feature, and a flag with neither is
a warning; `no-` behind the letter switches off.  A name that nothing answers to
is passed over.

* `Config.withFlag`: one flag.
* `Config.withFlags`: a list of flags, the groups `Wall`, `Wno-all` and
  `pedantic` before all others.
* `Config.withDirective`: the flags of one text, in order.
-/

namespace Isel.Settings

inductive Flag where
  /-- All warnings but the pedantic one. -/
  | allWarnings (on : Bool)
  | warning (name : String) (on : Bool)
  | feature (name : String) (on : Bool)
  deriving DecidableEq, Repr

namespace Flag

/-- The text behind a start that it may have. -/
def dropStart (start text : List Char) : List Char :=
  if start.isPrefixOf text then text.drop start.length else text

/-- A warning by name, `all` being the group. -/
def ofWarningName (name : List Char) (on : Bool) : Flag :=
  if name = ['a', 'l', 'l'] then .allWarnings on else .warning (String.ofList name) on

/-- The letter and what stands behind it. -/
def ofChars : List Char → Flag
  | 'W' :: 'n' :: 'o' :: '-' :: name => ofWarningName name false
  | 'W' :: name => ofWarningName name true
  | 'F' :: 'n' :: 'o' :: '-' :: name => .feature (String.ofList name) false
  | 'F' :: name => .feature (String.ofList name) true
  | name => ofWarningName name true

def ofText (text : String) : Flag := ofChars (dropStart ['-'] text.toList)

end Flag

namespace Config

/-- Switches a warning by name.  To switch the pedantic one on is to switch all
on. -/
def withWarningNamed (c : Config) (name : String) (on : Bool) : Config :=
  if name = Warning.pedantic.name then
    if on then { c with warnings := c.warnings.setEach true (Warning.all.map Warning.number) }
    else c.withWarning Warning.pedantic.number false
  else
    match c.warnings.number? name with
    | some number => c.withWarning number on
    | none => c

def withFeatureNamed (c : Config) (name : String) (on : Bool) : Config :=
  match c.features.number? name with
  | some number => c.withFeature number on
  | none => c

/-- The warnings of the group of all. -/
def groupWarnings : List Warning := Warning.all.filter (· ≠ .pedantic)

def apply (c : Config) : Flag → Config
  | .allWarnings on =>
    { c with warnings := c.warnings.setEach on (groupWarnings.map Warning.number) }
  | .warning name on => c.withWarningNamed name on
  | .feature name on => c.withFeatureNamed name on

def withFlag (c : Config) (text : String) : Config := c.apply (.ofText text)

/-- The flags that are taken first. -/
def isGroupFlag (name : String) : Bool := name == "Wall" || name == "Wno-all" || name == "pedantic"

/-- A list of flags, written without their hyphen: first the groups, then the
others, each in order. -/
def withFlags (c : Config) (names : List String) : Config :=
  let (groups, others) := names.partition isGroupFlag
  (groups ++ others).foldl (fun c name => c.withFlag ("-" ++ name)) c

/-- The flags between the blanks of a text, in order. -/
def withDirective (c : Config) (text : String) : Config :=
  (Text.words text).foldl withFlag c

end Config

end Isel.Settings
