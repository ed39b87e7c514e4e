import ObjectBridge.Container
import ObjectBridge.Failure
import ObjectBridge.WeakTable
import ObjectBridge.Catalogue

/-!
# Programs of the host

What a host function does when a script calls it is kept as data: a program is a list of actions,
each of which makes one call into the bridge and reports its outcome. Actions name the objects,
containers and pins that the host holds by text, and take their values from operands.

The actions come in families, one for each part of the bridge. Only the actions of `Action` itself
contain programs: making a function of one, running one under a stack guard, and repeating one.
-/

namespace ObjectBridge

/-- Where an action takes a value from. -/
inductive Operand where
  | nil
  | boolean (b : Bool)
  | integer (i : Int64)
  | number (x : Binary64)
  /-- A text, which is interned. -/
  | text (s : String)
  | word (w : UInt64)
  /-- A position of the current frame. -/
  | slot (idx : Int)
  /-- A register of the host. -/
  | register (name : String)
  /-- A reference by number, to whatever object has it. -/
  | reference (v : Value)
  deriving Inhabited

/-- The type as which a value crosses the border: a scalar, or the script value itself. -/
inductive CrossingType where
  | scalar (t : ScalarType)
  | value
  deriving Inhabited

/-- A typed argument of a call. -/
inductive Argument where
  | scalar (t : ScalarType) (d : Datum)
  | value (v : Operand)
  /-- No value at all. -/
  | unit
  deriving Inhabited

/-- What a field of a new object starts with. -/
inductive Initial where
  | datum (d : Datum)
  /-- The actual type that the object tells; an object may also tell none. -/
  | actualType (t : Option TypeKey)
  deriving Inhabited

/-- How an object is shared between owners: counted by one thread, or by several. -/
inductive Sharing where
  | plain
  | atomic
  deriving DecidableEq, Inhabited

/-- Actions on the stack of the current frame. -/
inductive StackAction where
  | push (v : Operand)
  | pop (n : Nat)
  | popValue
  | setTop (n : Nat)
  | remove (idx : Int)
  | replace (idx : Int) (v : Operand)
  | absolute (idx : Int)
  | read (idx : Int)
  | dump
  | keep (name : String) (v : Operand)
  | text (idx : Int)
  | integer (idx : Int)
  | truth (idx : Int)
  | rawEqual (a b : Int)
  | typeName (idx : Int)
  | isValid (idx : Int)
  | describe (v : Operand)
  | compare (a b : Operand)
  deriving Inhabited

/-- Actions on tables and metatables. -/
inductive TableAction where
  | create
  | rawGet (t k : Operand)
  | rawSet (t k v : Operand)
  | rawGetField (t : Operand) (name : String)
  | rawSetField (t : Operand) (name : String) (v : Operand)
  | rawGetPosition (t : Operand) (n : Int)
  | rawSetPosition (t : Operand) (n : Int) (v : Operand)
  | rawLength (t : Operand)
  | setMetatable (o m : Operand)
  | getMetatable (o : Operand)
  | metafield (o : Operand) (name : String)
  | reference (t v : Operand)
  | unreference (t : Operand) (r : Int)
  | getTable (idx : Int)
  | getField (idx : Int) (name : String)
  | pushLength (idx : Int)
  | setTable (idx : Int)
  | setField (idx : Int) (name : String)
  | index (o k : Operand)
  | newIndex (o k v : Operand)
  | length (o : Operand)
  | iterate (o : Operand)
  | pairs (o : Operand)
  | toText (o : Operand)
  deriving Inhabited

/-- Native functions that come without a program. -/
inductive Routine where
  /-- Gives its arguments back. -/
  | echo
  /-- Gives the number of its arguments. -/
  | count
  | nothing
  /-- Claims seven more results than it has values. -/
  | overclaim
  | fail (text : String)
  | panic (text : String)
  /-- Gives a fixed text. -/
  | say (text : String)
  deriving Inhabited

/-- Actions that make and call functions, and actions on globals. -/
inductive CallAction where
  | pushRoutine (name : String) (r : Routine)
  | call (nargs : Nat) (nresults : Option Nat)
  | tryCall (nargs : Nat) (nresults : Option Nat)
  | protectedCall (f : Operand) (args : List Operand)
  | callFunction (f : Operand) (args : List Operand)
  | invoke (path : String) (args : List Operand)
  | callWith (f : Operand) (args : List Argument) (results : List CrossingType)
  | callGlobal (path : String) (args : List Argument) (results : List CrossingType)
  | getGlobal (path : String) (t : CrossingType)
  | loadGlobal (path : String)
  | setGlobal (path : String)
  | makeGlobal (path : String)
  | fail (f : Failure)
  /-- A panic, whose payload is a text or something else. -/
  | panic (text : Option String)
  | convert (t : CrossingType) (v : Operand)
  | pushConverted (a : Argument)
  deriving Inhabited

/-- Actions on objects of the host. -/
inductive ObjectAction where
  | create (name : String) (t : TypeKey) (fields : List (String × Initial))
  | destroy (name : String)
  | detach (name : String)
  | anchorSlot (name : String)
  | examine (name : String)
  | pushPointer (name : String) (view : TypeKey)
  | pushNull (t : TypeKey)
  | pushOwned (t : TypeKey) (fields : List (String × Initial))
  | share (s : Sharing) (name : String) (t : TypeKey) (fields : List (String × Initial))
  | pushShared (name : String)
  | pushSharedPointer (name : String)
  | ownerCount (name : String)
  | dropShared (name : String)
  | load (idx : Int) (t : TypeKey)
  | check (idx : Int) (t : TypeKey)
  | argument (idx : Int) (t : TypeKey)
  | loadShared (s : Sharing) (idx : Int) (t : TypeKey)
  | repush (idx : Int) (t : TypeKey)
  | cast (idx : Int) (name : String)
  | inspect (v : Operand)
  | weakResolve (h : Handle) (t : TypeKey)
  | weakCount
  | pushForeign (n : Int64)
  | addForeign (v : Operand) (n : Int64)
  deriving Inhabited

/-- Actions on containers of the host. -/
inductive ContainerAction where
  | create (name : String) (kind : ContainerKind) (content : Container)
  | examine (name : String)
  | pushPointer (name : String)
  | pushNull (kind : ContainerKind)
  | pushOwned (kind : ContainerKind) (content : Container)
  | load (idx : Int) (kind : ContainerKind)
  | repush (idx : Int) (kind : ContainerKind)

/-- Actions of the collector, and pins. -/
inductive CollectAction where
  | collect
  | collectAll
  | statistics
  | cacheLength
  | farewells
  | pin (idx : Int) (name : String)
  | pushPin (name : String)
  | clonePin (source target : String)
  | dropPin (name : String)
  | showPin (name : String)
  | sameSlot (a b : String)
  | pinCount
  deriving Inhabited

/-- Questions to the registry. Where a question names types by text, the first type exported under
the text is meant. An object is seen as `view` for its address, and as the type exported under
`type` for the question. -/
inductive RegistryAction where
  | isBase (base derived : String)
  | find (name : String)
  | typeId (t : TypeKey)
  | nameOf (id : Nat)
  | toSuper (name : String) (view : TypeKey) (type target : String)
  | toDerived (name : String) (view : TypeKey) (type target : String)
  | root (name : String) (view : TypeKey) (type : String)
  | settings
  deriving Inhabited

/-- How many results a program leaves. -/
inductive ResultCount where
  | exactly (n : Nat)
  /-- Everything in its frame. -/
  | all
  deriving Inhabited

/-- One action of a program. -/
inductive Action where
  | stack (a : StackAction)
  | table (a : TableAction)
  | call (a : CallAction)
  | object (a : ObjectAction)
  | container (a : ContainerAction)
  | collect (a : CollectAction)
  | registry (a : RegistryAction)
  /-- Make a function of a program. -/
  | closure (body : List Action) (name : String)
  /-- Run a program and restore the top of the stack. -/
  | guarded (body : List Action)
  | repeated (n : Nat) (body : List Action)
  /-- End the program. -/
  | finish (n : ResultCount)

end ObjectBridge
