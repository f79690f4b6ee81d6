import Sable.Number.Format
import Sable.Ty

/-!
# What can go wrong while a program runs
-/

namespace Sable

inductive Fault where
  | alreadyDeclared (name : String)
  | unresolvedVariable (name : String)
  | constantAssignment (name : String)
  | finalAssignment (name : String)
  | variableMismatch (name : String) (actual expected : Ty)
  /-- An instance of one struct where another is asked for. -/
  | nominalMismatch (actual : String) (expected : Ty)
  | typeAlreadyDeclared (name : String)
  | unresolvedType (name : String)
  /-- The word of a primitive type is none of the five. -/
  | notPrimitive (word : String)
  | notAStruct (name : String)
  | notAContract (name : String)
  | aliasChain (name target : String)
  | typeArity (name : String) (expected received : Nat)
  | constraintViolation (argument constraint : Ty) (parameter : String)
  | missingField (field type : String)
  | unknownField (field type : String)
  | fieldMismatch (field type : String) (expected actual : Ty)
  | unknownProperty (property type : String)
  | invalidMember (property kind : String)
  /-- What stands behind a dot is no name. -/
  | notAName (form : String)
  | signatureMismatch (implemented : Signature) (target contract : String) (expected : Signature)
  | missingMember (contract member target : String)
  | indexOutOfBounds (index : Float) (name : String)
  | nonNumericIndex
  | invalidTarget (target : String)
  /-- A value is given to an expression that is neither a name nor a member. -/
  | notATarget (form : String)
  | arity (name : String) (expected received : Nat)
  | paramMismatch (param function : String) (expected actual : Ty)
  | returnMismatch (name : String) (expected actual : Ty)
  | notCallable (kind : String)
  | callDepth (limit : Nat)
  | zeroStep
  | notIterable (type : Ty)
  | notANumber (role : String) (actual : Ty)
  | noLength (kind : String)

def Fault.message : Fault → String
  | alreadyDeclared name => s!"Cannot declare variable \"{name}\" as it is already defined"
  | unresolvedVariable name => s!"Cannot resolve variable \"{name}\" as it does not exist"
  | constantAssignment name => s!"Cannot assign to a constant variable \"{name}\""
  | finalAssignment name => s!"Cannot assign to a final variable \"{name}\""
  | variableMismatch name actual expected =>
    s!"Type mismatch: Cannot assign value of type {actual.text} to variable \"{name}\" of type " ++
      expected.text
  | nominalMismatch actual expected =>
    s!"Type mismatch: Cannot assign value of type {actual} to variable of type {expected.text}"
  | typeAlreadyDeclared name => s!"Cannot declare type \"{name}\" as it is already defined"
  | unresolvedType name | notPrimitive name => s!"Unable to resolve type {name}"
  | notAStruct name => s!"Type '{name}' is not a struct"
  | notAContract name => s!"Type '{name}' is not a contract"
  | aliasChain name target => s!"Alias {name} cannot refer to another alias {target}"
  | typeArity name expected received =>
    s!"Type {name} expects {expected} type arguments but received {received}"
  | constraintViolation argument constraint parameter =>
    s!"Type argument {argument.text} does not satisfy constraint {constraint.text} of type " ++
      s!"parameter {parameter}"
  | missingField field type => s!"Missing required field '{field}' in struct '{type}'"
  | unknownField field type => s!"Unknown field '{field}' in struct '{type}'"
  | fieldMismatch field type expected actual =>
    s!"Field '{field}' in struct '{type}' must be of type '{expected.text}', but got " ++
      s!"'{actual.text}'"
  | unknownProperty property type => s!"Property '{property}' does not exist on {type}"
  | invalidMember property kind => s!"Cannot read property '{property}' of {kind}"
  | notAName form => s!"Cannot read property '{form}' of member expression"
  | signatureMismatch implemented target contract expected =>
    s!"Method {implemented.text} of struct {target}, does not satisfy signature " ++
      s!"{contract}.{expected.text}."
  | missingMember contract member target =>
    s!"Implementation of contract {contract} is missing method {member}, for struct {target}."
  | indexOutOfBounds index name =>
    s!"Index {Number.plain index} is out of bounds of the array '{name}'"
  | nonNumericIndex => "Index must be a number"
  | invalidTarget target | notATarget target => s!"Invalid assignment target {target}"
  | arity name expected received =>
    s!"Function {name} expected {expected} arguments but received {received}"
  | paramMismatch param function expected actual =>
    s!"Parameter {param} of function {function} must be of type {expected.text}, but got " ++
      actual.text
  | returnMismatch name expected actual =>
    s!"Function {name} must return a value of type {expected.text}, but returned {actual.text}"
  | notCallable kind => s!"Value of type {kind} is not callable"
  | callDepth limit => s!"Maximum call depth of {limit} exceeded"
  | zeroStep => "Range step cannot be zero"
  | notIterable type => s!"Cannot iterate over a value of type {type.text}"
  | notANumber role actual => s!"Type mismatch: {role} must be a number, but got {actual.text}"
  | noLength kind =>
    s!"Type mismatch: len expects a string, array or object, but got {kind}"

end Sable
