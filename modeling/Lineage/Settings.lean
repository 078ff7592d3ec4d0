/-
# Settings

Settings come as texts, in variables of the environment, and each has a value of
its own where it is not given. The tab size is a numeral, the weight from which
notices are shown is written in capital letters, and an encoding is taken by its
name as it stands.

Key definitions: `Settings`, `Settings.read`, `Settings.ofVariables`.
-/
import Lineage.Lifespan
import Lineage.Position
import Lineage.Text.Capital

namespace Lineage

/-- What can be set, and the form of tables, which cannot. -/
structure Settings where
  tabSize : Int
  level : String
  encoding : String
  delimiter : Char
  header : List String
  deriving DecidableEq, Repr

/-- The settings that texts give. -/
def Settings.read (tabSize level encoding : Option String) : Except Fault Settings := do
  let tabSize ←
    match tabSize with
    | none => pure defaultTabSize
    | some text =>
      match Text.readNumeral text with
      | some n => pure n
      | none => throw (.notANumeral text)
  return {
    tabSize
    level := Text.capitals (level.getD Level.info.word)
    encoding := encoding.getD "utf-8"
    delimiter := Lifespan.delimiter
    header := Lifespan.header }

/-- Fails unless the environment can hold a variable. -/
def Settings.requireVariable (name value : String) : Except Fault Unit :=
  if (name.toList ++ value.toList).contains '\x00' then .error .nulByte
  else if name = "" || name.toList.contains '=' then .error (.illegalName name)
  else .ok ()

/-- The settings that variables of the environment give. -/
def Settings.ofVariables (environment : List (String × String)) : Except Fault Settings := do
  environment.forM fun (name, value) => requireVariable name value
  read (environment.lookup "REPO_TRACK_TAB_SIZE") (environment.lookup "REPO_TRACK_LOG_LEVEL")
    (environment.lookup "REPO_TRACK_ENCODING")

end Lineage
