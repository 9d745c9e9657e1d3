/-!
# Modes

How generated models are used.
-/

namespace ContentModels

/-- How generated models are used. -/
inductive Mode where
  /-- As source files; content types that cannot be modelled as they are get refused. -/
  | sourceCode
  /-- Compiled in memory; properties that cannot be implemented are commented out. -/
  | inMemory
deriving DecidableEq

namespace Mode

/-- All modes. -/
def all : List Mode := [sourceCode, inMemory]

/-- The name of a mode, as a configuration file writes it. -/
def name : Mode → String
  | sourceCode => "source_code"
  | inMemory => "in_memory"

/-- The mode of the given name. -/
def ofName? (text : String) : Option Mode := all.find? fun mode => mode.name = text

/-- Every mode is found again by its name. -/
theorem ofName?_name (mode : Mode) : ofName? mode.name = some mode := by
  cases mode <;> decide

end Mode

end ContentModels
