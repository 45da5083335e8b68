/-!
# Log records

Functions that log return their records with their value, in the order in which they arose.
-/

namespace RoleFlow

/-- How serious a record is. -/
inductive Level where
  | debug
  | info
  | warning
  deriving DecidableEq

/-- The part of the program that a record comes from. -/
inductive Channel where
  | lexer
  | parser
  | converter
  | editor
  | server
  deriving DecidableEq

/-- A line of the log. -/
structure Record where
  level : Level
  channel : Channel
  message : String
  deriving DecidableEq

/-- The name of a level. -/
def Level.name : Level → String
  | .debug => "DEBUG"
  | .info => "INFO"
  | .warning => "WARNING"

/-- The dotted name of a channel. -/
def Channel.name : Channel → String
  | .lexer => "flowgo.dsl.lexer"
  | .parser => "flowgo.dsl.parser"
  | .converter => "flowgo.dsl.converter"
  | .editor => "flowgo.dsl.editor"
  | .server => "flowgo.mcp.server"

/-- A value, and the records logged on the way to it. -/
structure Logged (α : Type) where
  value : α
  records : List Record

namespace Logged

/-- Records without a value. -/
def log (records : List Record) : Logged Unit := ⟨(), records⟩

instance : Monad Logged where
  pure value := ⟨value, []⟩
  bind x f := ⟨(f x.value).value, x.records ++ (f x.value).records⟩

variable {α β : Type}

@[simp] theorem value_pure (a : α) : (pure a : Logged α).value = a := rfl

@[simp] theorem records_pure (a : α) : (pure a : Logged α).records = [] := rfl

@[simp] theorem value_map (f : α → β) (x : Logged α) : (f <$> x).value = f x.value := rfl

@[simp] theorem value_bind (x : Logged α) (f : α → Logged β) :
    (x >>= f).value = (f x.value).value := rfl

end Logged

end RoleFlow
