import Mathlib
import Art.Verifier.RegType

/-!
# `ClassJoin` is an upper bound, and the deepest common superclass

The superclass links of the classes are graded by `Depth()` (`graded`), with `java.lang.Object`
an ancestor of every class but a primitive one.  `IsSubClass` decides ancestry on that chain
(`isSubClass_iff`), so a class is assignable from each of its subclasses and, leaving interfaces
and arrays aside, from nothing else (`isAssignableFrom_of_ancestorOrSelf`,
`ancestorOrSelf_of_isAssignableFrom`).

Every branch of `ClassJoin` then returns a class assignable from both arguments, or null after
`FindArrayClass` failed (`classJoin_spec`), and for two classes that are neither interfaces nor
arrays the depth branch returns their deepest common superclass (`classJoin_least`).  It is not
the least upper bound among interfaces: two classes that implement one interface `I` join to
`java.lang.Object`, which `I` is not assignable from.
-/

namespace Art

namespace Mirror

namespace Class

open ParentChain

variable {α : Type} (H : ClassHierarchy α)

/-! ## The superclass chain -/

/-- The superclass links are graded by `Depth()`. -/
theorem graded : Graded (getSuperClass H) (depth H) where
  depth_parent c p h := by
    cases c with
    | primitive => cases h
    | ref a =>
      obtain ⟨q, hq, rfl⟩ := Option.map_eq_some_iff.1 h
      exact H.depth_parent a q hq
    | array =>
      cases h
      simp [depth, H.depth_root]
  exists_parent c h := by
    cases c with
    | primitive => cases h
    | ref a =>
      obtain ⟨p, hp⟩ := PathLabel.RootedTree.exists_parent_of_depth_pos (T := H.toRootedTree) h
      exact ⟨.ref p, by simp [getSuperClass, hp]⟩
    | array => exact ⟨_, rfl⟩

variable {H}

theorem isPrimitive_of_getSuperClass {c p : Class α} (h : c.getSuperClass H = some p) :
    p.isPrimitive = false := by
  cases c with
  | primitive => cases h
  | ref a =>
    obtain ⟨q, -, rfl⟩ := Option.map_eq_some_iff.1 h
    rfl
  | array =>
    cases h
    rfl

/-- No class has an interface for its superclass. -/
theorem isInterface_of_getSuperClass {c p : Class α} (h : c.getSuperClass H = some p) :
    p.isInterface H = false := by
  cases c with
  | primitive => cases h
  | ref a =>
    obtain ⟨q, hq, rfl⟩ := Option.map_eq_some_iff.1 h
    cases ha : H.isInterface a
    · exact H.parent_of_class a q ha hq
    · rw [H.parent_of_interface a ha] at hq
      cases hq
      exact H.root_not_interface
  | array =>
    cases h
    exact H.root_not_interface

theorem getSuperClass_of_isInterface {c : Class α} (h : c.isInterface H = true) :
    c.getSuperClass H = some (.ref H.root) := by
  cases c with
  | primitive => cases h
  | ref a => simp [getSuperClass, H.parent_of_interface a h]
  | array => cases h

theorem isObjectClass_iff {c : Class α} : c.isObjectClass H = true ↔ c = .ref H.root := by
  cases c with
  | primitive => simp [isObjectClass, isPrimitive]
  | ref a => simp [isObjectClass, isPrimitive, getSuperClass, H.parent_eq_none_iff]
  | array => simp [isObjectClass, isPrimitive, getSuperClass]

theorem isObjectClass_of_isInterface {c : Class α} (h : c.isInterface H = true) :
    c.isObjectClass H = false := by
  cases hobj : c.isObjectClass H
  · rfl
  · rw [isObjectClass_iff.1 hobj, isInterface, H.root_not_interface] at h
    cases h

/-- A proper superclass is the superclass of some class, so it is not primitive and not an
interface. -/
theorem not_isPrimitive_isInterface_of_ancestorOrSelf {d c : Class α}
    (h : AncestorOrSelf (getSuperClass H) d c) (hne : d ≠ c) :
    d.isPrimitive = false ∧ d.isInterface H = false := by
  obtain ⟨x, hx⟩ := h.eq_parent_of_ne hne
  exact ⟨isPrimitive_of_getSuperClass hx, isInterface_of_getSuperClass hx⟩

/-- `java.lang.Object` is the only class at depth `0` but the primitive ones. -/
theorem eq_object_of_depth_eq_zero {c : Class α} (hc : c.isPrimitive = false)
    (h : c.depth H = 0) : c = .ref H.root := by
  cases c with
  | primitive => cases hc
  | ref a => rw [PathLabel.RootedTree.eq_root_of_depth_eq_zero (T := H.toRootedTree) h]
  | array => cases h

/-- `java.lang.Object` is a superclass of every class but the primitive ones. -/
theorem object_ancestorOrSelf {c : Class α} (hc : c.isPrimitive = false) :
    AncestorOrSelf (getSuperClass H) (.ref H.root) c := by
  obtain ⟨o, -, ho, hdo, -⟩ := climb_spec (graded H) (n := c.depth H) (c := c) (Nat.le_refl _)
  have hop : o.isPrimitive = false := by
    by_cases hoc : o = c
    · rwa [hoc]
    · exact (not_isPrimitive_isInterface_of_ancestorOrSelf ho hoc).1
  rw [← eq_object_of_depth_eq_zero hop (by omega)]
  exact ho

/-! ## `IsSubClass` and `IsAssignableFrom` -/

variable [DecidableEq α]

theorem isSubClassLoop_iff {n : Nat} {c k : Class α} :
    isSubClassLoop H n c k = true ↔ ∃ j < n, climb (getSuperClass H) j c = some k := by
  induction n generalizing c with
  | zero => simp [isSubClassLoop]
  | succ n ih =>
    -- the first round compares `c` itself, the later ones climb from its superclass
    rw [Nat.exists_lt_succ_left]
    cases hs : c.getSuperClass H with
    | none => simp [isSubClassLoop, hs, climb_succ]
    | some p => simp [isSubClassLoop, hs, climb_succ, ih]

/-- `IsSubClass` walks the whole superclass chain. -/
theorem isSubClass_iff {c k : Class α} :
    c.isSubClass H k = true ↔ AncestorOrSelf (getSuperClass H) k c := by
  rw [isSubClass, isSubClassLoop_iff, ancestorOrSelf_iff_climb (graded H)]

@[simp] theorem isAssignableFrom_self (c : Class α) : c.isAssignableFrom H c = true := by
  rw [isAssignableFrom.eq_def, if_pos rfl]

/-- Arrays are covariant in their components. -/
theorem isAssignableFrom_array_array (x y : Class α) :
    (Class.array x).isAssignableFrom H (.array y) = x.isAssignableFrom H y := by
  by_cases h : x = y
  · subst h
    simp
  · rw [isAssignableFrom.eq_def, if_neg (by simpa using h)]
    simp [isObjectClass, isPrimitive, getSuperClass, isInterface, isArrayClass]

/-- A class is assignable from each of its subclasses. -/
theorem isAssignableFrom_of_ancestorOrSelf {c s : Class α}
    (h : AncestorOrSelf (getSuperClass H) c s) : c.isAssignableFrom H s = true := by
  by_cases hcs : c = s
  · subst hcs
    exact isAssignableFrom_self c
  obtain ⟨p, hp, hcp⟩ := h.of_ne hcs
  have hci := (not_isPrimitive_isInterface_of_ancestorOrSelf h hcs).2
  have hsp : s.isPrimitive = false := by
    cases s with
    | primitive => cases hp
    | _ => rfl
  rw [isAssignableFrom.eq_def, if_neg hcs]
  by_cases hobj : c.isObjectClass H = true
  · simp [hobj, hsp]
  -- below `Object`, `c` is not the superclass of an interface or an array
  have hpo : p ≠ .ref H.root := by
    rintro rfl
    apply hobj
    rw [isObjectClass_iff]
    exact AncestorOrSelf.eq_of_depth_le (graded H) hcp (by simp [depth, H.depth_root])
  have hsa : s.isArrayClass = false := by
    cases s with
    | array => cases hp; exact absurd rfl hpo
    | _ => rfl
  have hsi : s.isInterface H = false := by
    cases hsi : s.isInterface H
    · rfl
    · rw [getSuperClass_of_isInterface hsi] at hp
      cases hp
      exact absurd rfl hpo
  simp [hobj, hci, hsa, hsi, isSubClass_iff.2 (AncestorOrSelf.head hp hcp)]

theorem isAssignableFrom_object {c : Class α} (hc : c.isPrimitive = false) :
    (Class.ref H.root).isAssignableFrom H c = true :=
  isAssignableFrom_of_ancestorOrSelf (object_ancestorOrSelf hc)

/-- A class that is not an interface is assignable from a class that is not an array only if it
is one of its superclasses. -/
theorem ancestorOrSelf_of_isAssignableFrom {d s : Class α} (hd : d.isInterface H = false)
    (hs : s.isPrimitive = false) (hsa : s.isArrayClass = false)
    (h : d.isAssignableFrom H s = true) : AncestorOrSelf (getSuperClass H) d s := by
  by_cases hds : d = s
  · subst hds
    exact AncestorOrSelf.refl d
  by_cases hobj : d.isObjectClass H = true
  · rw [isObjectClass_iff.1 hobj]
    exact object_ancestorOrSelf hs
  rw [isAssignableFrom.eq_def, if_neg hds] at h
  simp only [hobj, hd, hsa, Bool.false_eq_true, if_false, Bool.and_eq_true] at h
  exact isSubClass_iff.1 h.2

/-- An interface that is the class itself or in its interface table is assignable from it. -/
theorem isAssignableFrom_of_mem_ifTable {i c : Class α} (hi : i.isInterface H = true)
    (hmem : i ∈ c :: (c.getIfTable H).reverse) : i.isAssignableFrom H c = true := by
  by_cases hic : i = c
  · subst hic
    exact isAssignableFrom_self i
  have hmem' : i ∈ c.getIfTable H := by simpa [hic] using hmem
  rw [isAssignableFrom.eq_def, if_neg hic]
  simp [isObjectClass_of_isInterface hi, hi, implements, hmem']

end Class

end Mirror

namespace Verifier

open Mirror Class ParentChain

variable {α : Type} [DecidableEq α] (H : ClassHierarchy α) (canFind : Class α → Bool)

/-- What `ClassJoin(s, t)` promises: a class assignable from both, or null after an array class
could not be created. -/
def JoinSpec (s t : Class α) : Option (Class α) → Prop
  | some c => c.isAssignableFrom H s = true ∧ c.isAssignableFrom H t = true
  | none => ∃ e, canFind e = false

variable {H canFind}

/-- `InterfaceClassJoin` finds an interface of both, or `java.lang.Object`. -/
theorem interfaceClassJoin_spec {s t : Class α} (hs : s.isPrimitive = false)
    (ht : t.isPrimitive = false) (hi : s.isInterface H = true ∨ t.isInterface H = true) :
    ∃ c, interfaceClassJoin H s t = some c ∧ c.isAssignableFrom H s = true ∧
      c.isAssignableFrom H t = true := by
  unfold interfaceClassJoin
  dsimp only
  split
  next sCl hf =>
    -- the scan stops at an interface of `s`'s candidates that is among `t`'s
    have hmem := List.mem_of_find?_eq_some hf
    have hcommon := List.find?_some hf
    simp only [Bool.and_eq_true, List.any_eq_true, beq_iff_eq] at hcommon
    obtain ⟨hsi, x, hx, -, rfl⟩ := hcommon
    exact ⟨sCl, rfl, isAssignableFrom_of_mem_ifTable hsi hmem,
      isAssignableFrom_of_mem_ifTable hsi hx⟩
  next hf =>
    refine ⟨.ref H.root, ?_, isAssignableFrom_object hs, isAssignableFrom_object ht⟩
    split_ifs with hsi
    · exact getSuperClass_of_isInterface hsi
    · exact getSuperClass_of_isInterface (hi.resolve_left (by simpa using hsi))

/-- `ArrayClassJoin` keeps the spec of the join of the components. -/
theorem arrayClassJoin_spec {sCt tCt : Class α}
    (ih : ∀ t, sCt.isPrimitive = false → t.isPrimitive = false →
      JoinSpec H canFind sCt t (classJoin H canFind sCt t)) :
    JoinSpec H canFind (.array sCt) (.array tCt)
      (arrayClassJoin H canFind (.array sCt) (.array tCt)) := by
  rw [arrayClassJoin]
  split_ifs with hprim
  · -- a primitive component: `java.lang.Object`
    exact ⟨isAssignableFrom_object rfl, isAssignableFrom_object rfl⟩
  simp only [Bool.or_eq_true, not_or, Bool.not_eq_true] at hprim
  have hjoin := ih tCt hprim.1 hprim.2
  cases hj : classJoin H canFind sCt tCt with
  | none =>
    rw [hj] at hjoin
    exact hjoin
  | some ce =>
    rw [hj] at hjoin
    obtain ⟨hs, ht⟩ := hjoin
    simp only [Option.bind_eq_bind, Option.bind_some, findArrayClass]
    split_ifs with hfind
    · exact ⟨by rw [isAssignableFrom_array_array]; exact hs,
        by rw [isAssignableFrom_array_array]; exact ht⟩
    · exact ⟨ce, by simpa using hfind⟩

/-- Each branch of `ClassJoin` keeps the spec, given that the array branch does. -/
theorem classJoin_spec_of {s t : Class α} (hs : s.isPrimitive = false)
    (ht : t.isPrimitive = false)
    (harray : s.isArrayClass = true → t.isArrayClass = true →
      JoinSpec H canFind s t (arrayClassJoin H canFind s t)) :
    JoinSpec H canFind s t (classJoin H canFind s t) := by
  rw [classJoin]
  split_ifs with heq hst hts harr hint
  · subst heq
    exact ⟨isAssignableFrom_self s, isAssignableFrom_self s⟩
  · exact ⟨isAssignableFrom_self s, hst⟩
  · exact ⟨hts, isAssignableFrom_self t⟩
  · rw [Bool.and_eq_true] at harr
    exact harray harr.1 harr.2
  · obtain ⟨c, hc, hcs, hct⟩ := interfaceClassJoin_spec hs ht (by simpa using hint)
    rw [hc]
    exact ⟨hcs, hct⟩
  · -- the depth branch meets at a common superclass
    obtain ⟨c, hc, hcs, hct, -⟩ :=
      commonAncestor_spec (graded H) (object_ancestorOrSelf hs) (object_ancestorOrSelf ht)
    rw [hc]
    exact ⟨isAssignableFrom_of_ancestorOrSelf hcs, isAssignableFrom_of_ancestorOrSelf hct⟩

/-- `ClassJoin` of two non-primitive classes, by induction on the first: the array branch joins
the components. -/
theorem classJoin_spec (s : Class α) : ∀ t, s.isPrimitive = false → t.isPrimitive = false →
    JoinSpec H canFind s t (classJoin H canFind s t) := by
  induction s with
  | primitive => intro t hs; cases hs
  | ref a =>
    intro t hs ht
    exact classJoin_spec_of hs ht fun h => by cases h
  | array sCt ih =>
    intro t hs ht
    refine classJoin_spec_of hs ht fun _ hta => ?_
    cases t with
    | array tCt => exact arrayClassJoin_spec ih
    | _ => cases hta

/-- For two classes that are neither interfaces nor arrays, `ClassJoin` is their deepest common
superclass: every class but an interface that is assignable from both is assignable from it. -/
theorem classJoin_least {s t : Class α} (hs : s.isPrimitive = false)
    (ht : t.isPrimitive = false) (hsi : s.isInterface H = false) (hti : t.isInterface H = false)
    (hsa : s.isArrayClass = false) (hta : t.isArrayClass = false) :
    ∃ c, classJoin H canFind s t = some c ∧
      ∀ d : Class α, d.isInterface H = false → d.isAssignableFrom H s = true →
        d.isAssignableFrom H t = true → d.isAssignableFrom H c = true := by
  rw [classJoin]
  split_ifs with heq hst hts harr hint
  · exact ⟨s, rfl, fun _ _ hds _ => hds⟩
  · exact ⟨s, rfl, fun _ _ hds _ => hds⟩
  · exact ⟨t, rfl, fun _ _ _ hdt => hdt⟩
  · simp [hsa] at harr
  · simp [hsi, hti] at hint
  · obtain ⟨c, hc, -, -, hlow⟩ :=
      commonAncestor_spec (graded H) (object_ancestorOrSelf hs) (object_ancestorOrSelf ht)
    refine ⟨c, hc, fun d hd hds hdt => isAssignableFrom_of_ancestorOrSelf (hlow d ?_ ?_)⟩
    · exact ancestorOrSelf_of_isAssignableFrom hd hs hsa hds
    · exact ancestorOrSelf_of_isAssignableFrom hd ht hta hdt

variable (H canFind) in
/-- `ClassJoin` of two non-primitive classes is a class assignable from both, unless an array
class lookup failed; for two classes that are neither interfaces nor arrays it is their deepest
common superclass, below every other class but an interface that is assignable from both. -/
theorem class_join_deepest_common_superclass {s t : Class α} (hs : s.isPrimitive = false)
    (ht : t.isPrimitive = false) :
    ((∃ c, classJoin H canFind s t = some c ∧ c.isAssignableFrom H s = true ∧
        c.isAssignableFrom H t = true) ∨
      (classJoin H canFind s t = none ∧ ∃ e, canFind e = false)) ∧
    (s.isInterface H = false → t.isInterface H = false → s.isArrayClass = false →
      t.isArrayClass = false →
      ∃ c, classJoin H canFind s t = some c ∧
        ∀ d : Class α, d.isInterface H = false → d.isAssignableFrom H s = true →
          d.isAssignableFrom H t = true → d.isAssignableFrom H c = true) := by
  refine ⟨?_, fun hsi hti hsa hta => classJoin_least hs ht hsi hti hsa hta⟩
  have hspec : JoinSpec H canFind s t (classJoin H canFind s t) := classJoin_spec s t hs ht
  cases hj : classJoin H canFind s t with
  | none =>
    rw [hj] at hspec
    exact .inr ⟨rfl, hspec⟩
  | some c =>
    rw [hj] at hspec
    exact .inl ⟨c, rfl, hspec⟩

/-- `java.lang.Object` (`0`), `Cloneable` (`1`), `Serializable` (`2`), an interface `I` (`3`), and
two classes `A` (`4`) and `B` (`5`) that extend `Object` and implement `I`. -/
def twoImplementors : ClassHierarchy (Fin 6) where
  parent c := if c = 0 then none else some 0
  depth c := if c = 0 then 0 else 1
  root := 0
  parent_eq_none_iff := by decide
  depth_root := rfl
  depth_parent := by decide
  isInterface c := c = 1 || c = 2 || c = 3
  ifTable c := if c = 4 ∨ c = 5 then [3] else []
  cloneable := 1
  serializable := 2
  root_not_interface := rfl
  parent_of_interface := by decide
  parent_of_class := by decide

theorem class_join_two_implementors :
    (Class.ref 4 : Class (Fin 6)).isPrimitive = false ∧
      (Class.ref 5 : Class (Fin 6)).isPrimitive = false ∧
      (((∃ c, classJoin twoImplementors (fun _ => true) (.ref 4) (.ref 5) = some c ∧
          c.isAssignableFrom twoImplementors (.ref 4) = true ∧
          c.isAssignableFrom twoImplementors (.ref 5) = true) ∨
        (classJoin twoImplementors (fun _ => true) (.ref 4) (.ref 5) = none ∧
          ∃ e : Class (Fin 6), (fun _ => true) e = false)) ∧
      ((Class.ref 4 : Class (Fin 6)).isInterface twoImplementors = false →
        (Class.ref 5 : Class (Fin 6)).isInterface twoImplementors = false →
        (Class.ref 4 : Class (Fin 6)).isArrayClass = false →
        (Class.ref 5 : Class (Fin 6)).isArrayClass = false →
        ∃ c, classJoin twoImplementors (fun _ => true) (.ref 4) (.ref 5) = some c ∧
          ∀ d : Class (Fin 6), d.isInterface twoImplementors = false →
            d.isAssignableFrom twoImplementors (.ref 4) = true →
            d.isAssignableFrom twoImplementors (.ref 5) = true →
            d.isAssignableFrom twoImplementors c = true)) :=
  ⟨rfl, rfl, class_join_deepest_common_superclass twoImplementors (fun _ => true) rfl rfl⟩

/-- `A` and `B` join to `java.lang.Object`, and the interface `I` is assignable from both but not
from `Object`. -/
theorem class_join_not_below_common_interface :
    classJoin twoImplementors (fun _ => true) (.ref 4) (.ref 5) = some (.ref 0) ∧
      (Class.ref 3 : Class (Fin 6)).isAssignableFrom twoImplementors (.ref 4) = true ∧
      (Class.ref 3 : Class (Fin 6)).isAssignableFrom twoImplementors (.ref 5) = true ∧
      (Class.ref 3 : Class (Fin 6)).isAssignableFrom twoImplementors (.ref 0) = false := by
  refine ⟨?_, by decide, by decide, by decide⟩
  rw [classJoin]
  decide

end Verifier

end Art
