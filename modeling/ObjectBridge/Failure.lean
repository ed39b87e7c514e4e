import ObjectBridge.Scalar.Convert

/-!
# Failures

A host function that runs on behalf of a script can fail. The causes are listed here, each with
what its message names, and `Failure.message` words them. Causes fall into a few classes that the
host can tell apart; `Failure.category` is the class.
-/

namespace ObjectBridge

/-- The operations that not every kind of value supports. -/
inductive Operation where
  | call
  | index
  | length
  | iterate
  deriving DecidableEq, Inhabited

/-- The wording of an operation. -/
def Operation.phrase : Operation → String
  | call => "call"
  | index => "index"
  | length => "get length of"
  | iterate => "iterate over"

/-- Whether a container argument is a key or a value. -/
inductive ElementRole where
  | key
  | value
  deriving DecidableEq, Inhabited

/-- The wording of a role. -/
def ElementRole.name : ElementRole → String
  | key => "key"
  | value => "value"

/-- The cause of a failed call. -/
inductive Failure where
  /-- A text chosen by a host function. -/
  | custom (text : String)
  /-- A value that a field cannot hold. -/
  | conversion (m : Mismatch)
  /-- A value that a container cannot hold. -/
  | badElement (role : ElementRole) (container : String) (m : Mismatch)
  /-- The result at a position, counted from 1, has the wrong type. -/
  | badResult (position : Nat) (m : Mismatch)
  | badGlobal (path : String) (m : Mismatch)
  | unrepresentable (n : Unrepresentable)
  | tooFewValues
  | indexChainTooLong
  | newIndexChainTooLong
  | noSuchTable
  | noSuchUserdata
  | keyIsNil
  | keyIsNaN
  | noMetatableFor (kind : Kind)
  | missingGlobal (path : String)
  | globalIsNoTable (part : String) (kind : Kind)
  | unregistered (typeName : String)
  | noWeakSlot (typeName : String)
  | unknownType (typeName : String)
  | invalidIterator (container : String)
  /-- An argument of the wrong type; negative numbers count from the top of the stack. -/
  | typeMismatch (arg : Int) (expected actual : String)
  | invalidCast (source target : String)
  | nilObject (typeName member : String)
  | unknownMember (typeName member : String)
  | readOnly (typeName member : String)
  | outOfRange (container : String) (index : Int) (length : Nat)
  | badOperand (operation : Operation) (typeName : String)
  | stackOverflow
  | nativePanic (text : String)
  deriving DecidableEq, Inhabited

/-- The classes of failure that the host tells apart. -/
inductive FailureCategory where
  | runtime
  | typeMismatch
  | invalidCast
  | nilObject
  | unknownMember
  | readOnly
  | outOfRange
  | badOperand
  | stackOverflow
  | nativePanic
  deriving DecidableEq, Inhabited

namespace Failure

/-- The class of a failure. -/
def category : Failure → FailureCategory
  | typeMismatch _ _ _ => .typeMismatch
  | invalidCast _ _ => .invalidCast
  | nilObject _ _ => .nilObject
  | unknownMember _ _ => .unknownMember
  | readOnly _ _ => .readOnly
  | outOfRange _ _ _ => .outOfRange
  | badOperand _ _ => .badOperand
  | stackOverflow => .stackOverflow
  | nativePanic _ => .nativePanic
  | _ => .runtime

/-- The wording of a failure. -/
def message : Failure → String
  | custom text => text
  | conversion m => m.message
  | badElement role container m =>
    "bad " ++ role.name ++ " for " ++ container ++ ": " ++ m.message
  | badResult position m => "bad value #" ++ position.repr ++ ": " ++ m.message
  | badGlobal path m => "global '" ++ path ++ "': " ++ m.message
  | unrepresentable n =>
    n.kind.name ++ " " ++ n.value.repr ++ " does not fit in an integer"
  | tooFewValues => "call: not enough values on the stack"
  | indexChainTooLong => "'__index' chain too long; possible loop"
  | newIndexChainTooLong => "'__newindex' chain too long; possible loop"
  | noSuchTable => "invalid table"
  | noSuchUserdata => "invalid userdata"
  | keyIsNil => "table index is nil"
  | keyIsNaN => "table index is NaN"
  | noMetatableFor kind => "cannot set metatable of a " ++ kind.name ++ " value"
  | missingGlobal path => "global path '" ++ path ++ "' does not exist"
  | globalIsNoTable part kind => "global '" ++ part ++ "' is a " ++ kind.name ++ " value"
  | unregistered typeName => "type '" ++ typeName ++ "' is not registered"
  | noWeakSlot typeName => "no weak slot for '" ++ typeName ++ "'"
  | unknownType typeName => "unknown type '" ++ typeName ++ "'"
  | invalidIterator container => "invalid " ++ container ++ " iterator"
  | typeMismatch arg expected actual =>
    "bad argument #" ++ arg.repr ++ ": '" ++ expected ++ "' expected, got '" ++ actual ++ "'"
  | invalidCast source target => "cannot cast '" ++ source ++ "' to '" ++ target ++ "'"
  | nilObject typeName member =>
    "attempt to access member '" ++ member ++ "' of a nil '" ++ typeName ++ "' object"
  | unknownMember typeName member => "'" ++ typeName ++ "' has no member '" ++ member ++ "'"
  | readOnly typeName member => "member '" ++ member ++ "' of '" ++ typeName ++ "' is read only"
  | outOfRange container index length =>
    container ++ " index " ++ index.repr ++ " is out of range [1, " ++ length.repr ++ "]"
  | badOperand operation typeName =>
    "attempt to " ++ operation.phrase ++ " a " ++ typeName ++ " value"
  | stackOverflow => "stack overflow"
  | nativePanic text => "native panic: " ++ text

end Failure

end ObjectBridge
