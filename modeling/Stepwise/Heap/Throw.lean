/-!
# Exceptions of the interpreted language

An exception that an operation raises, before it becomes an object.
-/

namespace Stepwise

/-- The types of errors. -/
inductive ErrorType where
  | error | typeError | referenceError | rangeError | syntaxError | evalError | uriError
  deriving DecidableEq, Repr, Inhabited

namespace ErrorType

/-- Every type, the most general first. -/
def all : List ErrorType :=
  [error, typeError, referenceError, rangeError, syntaxError, evalError, uriError]

/-- The name of a type. -/
def name : ErrorType → String
  | error => "Error"
  | typeError => "TypeError"
  | referenceError => "ReferenceError"
  | rangeError => "RangeError"
  | syntaxError => "SyntaxError"
  | evalError => "EvalError"
  | uriError => "URIError"

end ErrorType

/-- An exception to be raised. -/
structure Throw where
  type : ErrorType
  message : String
  deriving DecidableEq, Repr, Inhabited

namespace Throw

/-- A name is bound nowhere. -/
def notDefined (name : String) : Throw := ⟨.referenceError, name ++ " is not defined"⟩

/-- A property of nothing is read. -/
def cannotRead (key owner : String) : Throw :=
  ⟨.typeError, "Cannot read property '" ++ key ++ "' of " ++ owner⟩

/-- A property of nothing is written. -/
def cannotSet (key owner : String) : Throw :=
  ⟨.typeError, "Cannot set property '" ++ key ++ "' of " ++ owner⟩

/-- A property of a primitive is written. -/
def cannotCreate (key type owner : String) : Throw :=
  ⟨.typeError, "Cannot create property '" ++ key ++ "' on " ++ type ++ " '" ++ owner ++ "'"⟩

/-- A character or the length of a string is written. -/
def readOnly (key : String) : Throw :=
  ⟨.typeError, "Cannot assign to read only property '" ++ key ++ "' of string"⟩

/-- An array cannot have that length. -/
def arrayLength : Throw := ⟨.rangeError, "Invalid array length"⟩

/-- Something that is not a function is asked for its instances. -/
def instanceOfNonFunction : Throw :=
  ⟨.typeError, "Right-hand side of 'instanceof' is not callable"⟩

/-- A function without a prototype is asked for its instances. -/
def instanceOfNoPrototype : Throw :=
  ⟨.typeError, "Function has non-object prototype in instanceof check"⟩

/-- A key is looked for in something that is no object. -/
def inNonObject (key owner : String) : Throw :=
  ⟨.typeError, "Cannot use 'in' operator to search for '" ++ key ++ "' in " ++ owner⟩

/-- A property of nothing is deleted. -/
def deleteOfNothing : Throw := ⟨.typeError, "Cannot convert undefined or null to object"⟩

/-- Something that is not a function is called. -/
def notFunction (what : String) : Throw := ⟨.typeError, what ++ " is not a function"⟩

/-- Something that is not a function is called with `new`. -/
def notConstructor (what : String) : Throw := ⟨.typeError, what ++ " is not a constructor"⟩

/-- A value is assigned to something that cannot hold one. -/
def assignmentTarget : Throw := ⟨.referenceError, "Invalid left-hand side in assignment"⟩

/-- Something that cannot hold a value is counted up or down. -/
def updateTarget : Throw :=
  ⟨.syntaxError, "Invalid left-hand side expression in update operation"⟩

/-- Syntax that is not evaluated. -/
def unsupported (what : String) : Throw := ⟨.syntaxError, what ++ " not supported"⟩

end Throw

end Stepwise
