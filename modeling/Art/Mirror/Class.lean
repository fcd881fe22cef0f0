import Art.Lib.PathLabel

/-!
# Classes and their assignability (`runtime/mirror/class.h`, `class-inl.h`, `class.cc`)

A class is a primitive class, a class or interface of the hierarchy, or the array class of its
component class; the class linker makes one array class per component, so two classes are the
same object exactly when they are equal here.  The hierarchy is a rooted tree with
`java.lang.Object` at the root: every interface has `Object` as its superclass and the superclass
of every other class is a class, not an interface.  `Depth()` counts the superclasses, which is the
tree's depth.  An array class has `Object` as its superclass and `Cloneable` and `Serializable` in
its interface table; a primitive class has no superclass and no interfaces.

`IsSubClass` walks the superclass chain until it ends, which takes `Depth() + 1` rounds at most;
the model runs it for that many.
-/

namespace Art

namespace Mirror

/-- The primitive types that have a class, `Primitive::Type` without `kPrimNot`. -/
inductive PrimitiveType where
  | boolean | byte | char | short | int | long | float | double | void
  deriving DecidableEq, Repr

/-- A `mirror::Class`: a primitive class, a class or interface `a` of the hierarchy, or the array
class of `component`. -/
inductive Class (α : Type) where
  | primitive (type : PrimitiveType)
  | ref (a : α)
  | array (component : Class α)
  deriving DecidableEq, Repr

/-- The classes and interfaces of a runtime: the superclass tree rooted at `java.lang.Object`,
which of them are interfaces, and each one's interface table. -/
structure ClassHierarchy (α : Type) extends PathLabel.RootedTree α where
  isInterface : α → Bool
  ifTable : α → List α
  cloneable : α
  serializable : α
  root_not_interface : isInterface root = false
  parent_of_interface : ∀ a, isInterface a = true → parent a = some root
  parent_of_class : ∀ a p, isInterface a = false → parent a = some p → isInterface p = false

namespace Class

variable {α : Type} [DecidableEq α] (H : ClassHierarchy α)

/-- `GetSuperClass()`, `none` for null. -/
def getSuperClass : Class α → Option (Class α)
  | .primitive _ => none
  | .ref a => (H.parent a).map .ref
  | .array _ => some (.ref H.root)

def isInterface : Class α → Bool
  | .ref a => H.isInterface a
  | _ => false

def isPrimitive : Class α → Bool
  | .primitive _ => true
  | _ => false

def isArrayClass : Class α → Bool
  | .array _ => true
  | _ => false

def getComponentType : Class α → Option (Class α)
  | .array component => some component
  | _ => none

/-- `Depth()`: the number of superclasses. -/
def depth : Class α → Nat
  | .primitive _ => 0
  | .ref a => H.depth a
  | .array _ => 1

/-- The interfaces of `GetIfTable()`, in table order. -/
def getIfTable : Class α → List (Class α)
  | .primitive _ => []
  | .ref a => (H.ifTable a).map .ref
  | .array _ => [.ref H.cloneable, .ref H.serializable]

/-- `IsObjectClass()`: `!IsPrimitive() && GetSuperClass() == nullptr`. -/
def isObjectClass (c : Class α) : Bool := !c.isPrimitive && (c.getSuperClass H).isNone

/-- `Implements(klass)`: a linear scan of the interface table. -/
def implements (c klass : Class α) : Bool := (c.getIfTable H).contains klass

/-- The loop of `IsSubClass(klass)`, `do { if (current == klass) return true;
current = current->GetSuperClass(); } while (!current.IsNull());`, for at most `n` rounds. -/
def isSubClassLoop : Nat → Class α → Class α → Bool
  | 0, _, _ => false
  | n + 1, current, klass =>
    current == klass ||
      match current.getSuperClass H with
      | none => false
      | some super => isSubClassLoop n super klass

/-- `IsSubClass(klass)`: the chain from `c` has `Depth() + 1` classes. -/
def isSubClass (c klass : Class α) : Bool := isSubClassLoop H (c.depth H + 1) c klass

/-- `IsAssignableFrom(src)`, with `IsAssignableFromArray` and `IsArrayAssignableFromArray`. -/
def isAssignableFrom (this src : Class α) : Bool :=
  if this = src then true
  else if this.isObjectClass H then !src.isPrimitive
  else if this.isInterface H then src.implements H this
  else if src.isArrayClass then
    match this, src with
    | .array thisComponent, .array srcComponent => isAssignableFrom thisComponent srcComponent
    -- `this` is not an array: it must be `Object`, the array's superclass
    | _, _ => some this == src.getSuperClass H
  else !src.isInterface H && src.isSubClass H this

end Class

end Mirror

end Art
