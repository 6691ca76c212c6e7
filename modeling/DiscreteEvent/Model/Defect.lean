/-
Defects: why a description is not a model.

A defect names the model whose description is wrong and what is wrong with
it. `Blueprint.build` reports the first one it meets.
-/
import DiscreteEvent.Port

set_option autoImplicit false

namespace DiscreteEvent

/-- What is wrong with a description. -/
inductive Defect
  /-- Two children of `parent` have one id. -/
  | duplicateModelId (parent id : String)
  /-- A model declares a port twice in one direction. -/
  | duplicatePort (model port : String) (direction : Direction)
  /-- A coupling of `parent` names a child that it does not have. -/
  | unknownModel (parent id : String)
  /-- A coupling names a port that the model does not have. -/
  | unknownPort (model port : String) (direction : Direction)
  /-- A coupling uses a port of the model the wrong way round. -/
  | portDirection (model port : String) (expected : Direction)
  /-- A coupling joins ports with messages of different types. -/
  | portTypeMismatch (source sourceType destination destinationType : String)
  /-- An internal coupling of `parent` joins a child to itself. -/
  | selfLoop (parent id : String)
deriving DecidableEq

namespace Defect

/-- The defect as a sentence. -/
def display : Defect → String
  | duplicateModelId parent id =>
    "coupled model '" ++ parent ++ "' has several children with id '" ++ id ++ "'"
  | duplicatePort model port direction =>
    "model '" ++ model ++ "' declares " ++ direction.display ++ " port '" ++ port
      ++ "' more than once"
  | unknownModel parent id =>
    "coupled model '" ++ parent ++ "' has no child with id '" ++ id ++ "'"
  | unknownPort model port direction =>
    "model '" ++ model ++ "' has no " ++ direction.display ++ " port '" ++ port ++ "'"
  | portDirection model port expected =>
    "port '" ++ port ++ "' of model '" ++ model ++ "' is not an " ++ expected.display ++ " port"
  | portTypeMismatch source sourceType destination destinationType =>
    "cannot couple '" ++ source ++ "' carrying `" ++ sourceType ++ "` to '" ++ destination
      ++ "' carrying `" ++ destinationType ++ "`"
  | selfLoop parent id =>
    "internal coupling of coupled model '" ++ parent ++ "' connects '" ++ id ++ "' to itself"

/-- The defect with its parts. -/
def inspect : Defect → String
  | duplicateModelId parent id =>
    Text.record "DuplicateModelId" [("parent", Text.quoted parent), ("id", Text.quoted id)]
  | duplicatePort model port direction =>
    Text.record "DuplicatePort"
      [("model", Text.quoted model), ("port", Text.quoted port), ("direction", direction.inspect)]
  | unknownModel parent id =>
    Text.record "UnknownModel" [("parent", Text.quoted parent), ("id", Text.quoted id)]
  | unknownPort model port direction =>
    Text.record "UnknownPort"
      [("model", Text.quoted model), ("port", Text.quoted port), ("direction", direction.inspect)]
  | portDirection model port expected =>
    Text.record "PortDirection"
      [("model", Text.quoted model), ("port", Text.quoted port), ("expected", expected.inspect)]
  | portTypeMismatch source sourceType destination destinationType =>
    Text.record "PortTypeMismatch"
      [("source", Text.quoted source), ("source_type", Text.quoted sourceType),
       ("destination", Text.quoted destination),
       ("destination_type", Text.quoted destinationType)]
  | selfLoop parent id =>
    Text.record "SelfLoop" [("parent", Text.quoted parent), ("id", Text.quoted id)]

end Defect

end DiscreteEvent
