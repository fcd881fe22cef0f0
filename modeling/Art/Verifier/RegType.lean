import Art.Mirror.Class
import Art.Lib.ParentChain

/-!
# The verifier's join of two reference classes (`runtime/verifier/reg_type.cc`)

`ClassJoin(s, t)` returns `s` or `t` when one is assignable from the other, joins two array
classes by their components (`ArrayClassJoin`), picks an interface both share when one of them is
an interface (`InterfaceClassJoin`), and otherwise brings the deeper class up to the other's depth
and walks both up the superclass chain until they meet.

`ClassLinker::FindArrayClass` may fail to create an array class and return null; the model takes
which lookups succeed as a parameter `canFind`.  A null result is `none`.
-/

namespace Art

namespace Verifier

open Mirror

variable {α : Type} [DecidableEq α] (H : ClassHierarchy α) (canFind : Class α → Bool)

/-- `ClassLinker::FindArrayClass(self, component)`: the array class of `component`, or null when
it cannot be created. -/
def findArrayClass (component : Class α) : Option (Class α) :=
  if canFind component then some (.array component) else none

/-- `InterfaceClassJoin(s, t)`: the first interface, scanning `s` and then its interface table
backwards, that is also `t` or in `t`'s table; `java.lang.Object` if there is none. -/
def interfaceClassJoin (s t : Class α) : Option (Class α) :=
  -- the index `count` stands for the class itself, then the table runs from its end
  let sCandidates := s :: (s.getIfTable H).reverse
  let tCandidates := t :: (t.getIfTable H).reverse
  let common (sCl : Class α) : Bool :=
    sCl.isInterface H && tCandidates.any fun tCl => tCl.isInterface H && sCl == tCl
  match sCandidates.find? common with
  | some sCl => some sCl
  | none => if s.isInterface H then s.getSuperClass H else t.getSuperClass H

mutual

/-- `ClassJoin(s, t)` for two non-primitive classes. -/
def classJoin (s t : Class α) : Option (Class α) :=
  if s = t then some s
  else if s.isAssignableFrom H t then some s
  else if t.isAssignableFrom H s then some t
  else if s.isArrayClass && t.isArrayClass then arrayClassJoin s t
  else if s.isInterface H || t.isInterface H then interfaceClassJoin H s t
  else
    -- get `s` and `t` to the same depth, then go up until we get to the common parent
    ParentChain.commonAncestor (Class.getSuperClass H) (Class.depth H) s t
termination_by (sizeOf s, 1)

/-- `ArrayClassJoin(s, t)` for two array classes. -/
def arrayClassJoin (s t : Class α) : Option (Class α) :=
  match s, t with
  | .array sCt, .array tCt =>
    if sCt.isPrimitive || tCt.isPrimitive then
      -- the only common parent is `java.lang.Object`
      s.getSuperClass H
    else do
      let commonElem ← classJoin sCt tCt
      findArrayClass canFind commonElem
  -- `ClassJoin` calls it for two array classes only
  | _, _ => none
termination_by (sizeOf s, 0)

end

end Verifier

end Art
