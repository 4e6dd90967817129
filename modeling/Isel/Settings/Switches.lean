import Isel.Assoc

/-!
# Switches

Features and warnings are switched alike: each has a number, and under it a name, a
description and whether it is on.  Names are looked up in a table of their own.
-/

namespace Isel.Settings

structure Info where
  name : String
  on : Bool
  description : String
  deriving DecidableEq, Repr

/-- Entries by their numbers, and numbers by the names of their entries. -/
structure Switches where
  entries : List (Int × Info)
  numbers : List (String × Int)
  deriving DecidableEq, Repr

namespace Switches

/-- The entries are numbered in order. -/
def ofInfos (infos : List Info) : Switches :=
  let entries := infos.mapIdx fun i info => ((i : Int), info)
  ⟨entries, entries.foldl (fun numbers e => Assoc.put e.2.name e.1 numbers) []⟩

def info? (s : Switches) (number : Int) : Option Info := s.entries.lookup number

/-- A number without an entry is off. -/
def isOn (s : Switches) (number : Int) : Bool := (s.info? number).any Info.on

def number? (s : Switches) (name : String) : Option Int := s.numbers.lookup name

/-- A number without an entry changes nothing. -/
def set (s : Switches) (on : Bool) (number : Int) : Switches :=
  match s.info? number with
  | some info => { s with entries := Assoc.put number { info with on } s.entries }
  | none => s

/-- Switches numbers one after the other. -/
def setEach (s : Switches) (on : Bool) (numbers : List Int) : Switches :=
  numbers.foldl (fun s number => s.set on number) s

/-- The entries without their switches. -/
def labels (s : Switches) : List (Int × String × String) :=
  s.entries.map fun e => (e.1, e.2.name, e.2.description)

theorem info?_set (s : Switches) (on : Bool) (number n : Int) :
    (s.set on number).info? n =
      if n = number then (s.info? n).map fun info => { info with on } else s.info? n := by
  unfold set
  split
  · next info hinfo =>
    split
    · next hn =>
      rw [hn, hinfo]
      exact Assoc.lookup_put_self number _ s.entries
    · next hn => exact Assoc.lookup_put_ne hn
  · next hinfo =>
    split
    · next hn => rw [hn, hinfo, Option.map_none]
    · rfl

end Switches

end Isel.Settings
