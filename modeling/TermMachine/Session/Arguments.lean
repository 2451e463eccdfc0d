import TermMachine.External.CommandLine
import TermMachine.Machine.Basic

/-! # Command line arguments

A command line has at most two terms, flags for what is printed, and a size for each zone of the
machine.
-/
namespace TermMachine.Session

inductive Flag where
  | listing
  | dump
deriving DecidableEq

inductive Zone where
  | registers
  | code
  | heap
  | functors
deriving DecidableEq

abbrev Arguments := CommandLine Flag Zone

namespace Arguments

def flagOfName? (name : List Char) : Option Flag :=
  if name = "listing".toList then some .listing
  else if name = "dump".toList then some .dump
  else none

def flagOfLetter? (c : Char) : Option Flag :=
  if c = 'l' then some .listing else if c = 'd' then some .dump else none

def zoneOfName? (name : List Char) : Option Zone :=
  if name = "registers".toList then some .registers
  else if name = "code".toList then some .code
  else if name = "heap".toList then some .heap
  else if name = "functors".toList then some .functors
  else none

def declared : Declared Flag Zone := ⟨flagOfName?, flagOfLetter?, zoneOfName?, 2⟩

def usage : String :=
  "usage: [-l|--listing] [-d|--dump] [--registers N] [--code N] [--heap N] [--functors N] " ++
    "[--] [QUERY PROGRAM]\n"

def parse? (args : List String) : Option Arguments := (CommandLine.read declared args).toOption

def has (a : Arguments) (flag : Flag) : Bool := decide (flag ∈ a.flags)

def sizeOf (a : Arguments) (zone : Zone) (standard : Nat) : Nat :=
  (a.sizes.lookup zone).getD standard

def capacities (a : Arguments) : Capacities where
  registers := a.sizeOf .registers Capacities.standard.registers
  code := a.sizeOf .code Capacities.standard.code
  heap := a.sizeOf .heap Capacities.standard.heap
  functors := a.sizeOf .functors Capacities.standard.functors

end Arguments
end TermMachine.Session
