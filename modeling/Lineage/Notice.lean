/-
# Notices

Work leaves a log of notices. A notice tells what was done or what could not be
done, and how much it matters.

Key definitions: `Level`, `Notice`, `Notice.level`, `Notice.message`, `Notice.fromLevel`.
-/
import Lineage.Fault

namespace Lineage

/-- How much a notice matters. -/
inductive Level where
  | debug
  | info
  | warning
  | error
  deriving DecidableEq, Repr

/-- The level's name. -/
def Level.word : Level → String
  | .debug => "DEBUG"
  | .info => "INFO"
  | .warning => "WARNING"
  | .error => "ERROR"

/-- All levels. -/
def Level.all : List Level := [.debug, .info, .warning, .error]

/-- The level of a name. -/
def Level.ofWord? (word : String) : Option Level :=
  Level.all.find? fun l => l.word == word

/-- Levels in order of weight. -/
def Level.rank : Level → Nat
  | .debug => 0
  | .info => 1
  | .warning => 2
  | .error => 3

/-- What happened. -/
inductive Notice where
  | reading (path : String)
  | compared (count : Nat) (change : String)
  | lineGone (range : String) (line : Int)
  | linesUnresolved (first last : Int) (file : String)
  | rangeLost (range change : String)
  | linkedBySignature (ordinal : Int) (count : Nat)
  | linkedByPosition (ordinal : Int) (count : Nat)
  | mapped (revision : String) (ordinal : Int) (sources targets links : Nat)
  | untracked (ordinal : Int)
  | tracked (ordinal : Int) (started updated total : Nat)
  | savedJson (path : String)
  | savedTable (path : String)
  | jsonNotSaved (fault : Fault)
  | jsonNotLoaded (fault : Fault)
  | tableNotSaved (fault : Fault)
  deriving DecidableEq, Repr

namespace Notice

/-- How much a notice matters. -/
def level : Notice → Level
  | .reading .. => .debug
  | .compared .. => .debug
  | .lineGone .. => .debug
  | .linesUnresolved .. => .debug
  | .rangeLost .. => .debug
  | .linkedBySignature .. => .debug
  | .linkedByPosition .. => .debug
  | .mapped .. => .info
  | .untracked .. => .warning
  | .tracked .. => .info
  | .savedJson .. => .info
  | .savedTable .. => .info
  | .jsonNotSaved .. => .error
  | .jsonNotLoaded .. => .error
  | .tableNotSaved .. => .error

/-- A notice in words. -/
def message : Notice → String
  | .reading path => s!"Reading {path}"
  | .compared count change => s!"Computed {count} line changes for {change}"
  | .lineGone range line => s!"Unable to translate {range}: line {line} no longer exists"
  | .linesUnresolved first last file => s!"Unable to resolve lines {first}-{last} in {file}"
  | .rangeLost range change => s!"Unable to translate {range} with {change}"
  | .linkedBySignature ordinal count => s!"[{ordinal}] {count} mappables linked by signature"
  | .linkedByPosition ordinal count => s!"[{ordinal}] {count} mappables linked by position"
  | .mapped revision ordinal sources targets links =>
    s!"Mapped revision {revision} (ordinal {ordinal}): {sources} from, {targets} to, {links} links"
  | .untracked ordinal =>
    s!"[{ordinal}] Predecessor of mappable exists but is not tracked, starting a new lifespan"
  | .tracked ordinal started updated total =>
    s!"Tracked ordinal {ordinal}: {started} new lifespans, {updated} updated, {total} in total"
  | .savedJson path => s!"Saved json file: {path}"
  | .savedTable path => s!"Saved lifespan csv: {path}"
  | .jsonNotSaved fault => s!"Error saving json file: {fault.message}"
  | .jsonNotLoaded fault => s!"Error loading json file: {fault.message}"
  | .tableNotSaved fault => s!"Error saving lifespan csv: {fault.message}"

/-- The notices of a log that matter at least as much as a level. -/
def fromLevel (level : Level) (log : List Notice) : List Notice :=
  log.filter fun n => level.rank ≤ n.level.rank

end Notice
end Lineage
