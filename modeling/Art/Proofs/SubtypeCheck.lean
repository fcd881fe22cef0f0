import Art.Proofs.SubtypeCheckInfo

/-!
# The subtype check along every run of calls

`Inv` is the tree invariants of `subtype_check_info.h` on the characters of the bits: nothing past
`Next`, an Assigned class's `Next` at least 1, the parent of an initialized class Assigned or
Overflowed (and Assigned unless the class is Overflowed), a class repeating its parent's path, a
nonzero character at the parent's depth only in a class that is not Overflowed and then below the
parent's `Next`, and Assigned siblings with different characters there.  Under `Inv` the bits are a
path labelling of the class tree (`Inv.pathLabelling`), so `IsSubtypeOf` answers the tree order
(`isSubtypeOf_iff`).

`InitializeOrAssign` keeps `Inv`, returns what it stores and moves every class's bits only as
`Advances` allows (`initializeOrAssign_spec`, by induction on the depth).  Its two writing
branches are `CreateRoot` on the root (`inv_createRoot`) and `CreateChild` on a class whose parent
it has just assigned (`ChildStep`): there only the class gets new bits, and its parent only a
larger `Next`.
-/

namespace Art

namespace SubtypeCheck

open PathLabel RootedTree SubtypeCheckInfo BitString

variable {κ : Type*} (T : RootedTree κ)

structure Inv (σ : κ → SubtypeCheckBits) : Prop where
  chars_above : ∀ c k, T.depth c < k → (σ c).bitstring.chars k = 0
  next_pos : ∀ c, getState T σ c = .kAssigned → T.depth c < kCapacity →
    1 ≤ (σ c).bitstring.chars (T.depth c)
  parent_state : ∀ c p, T.parent c = some p → getState T σ c ≠ .kUninitialized →
    (getState T σ p = .kAssigned ∨ getState T σ p = .kOverflowed) ∧
      ((σ c).overflow = false → getState T σ p = .kAssigned)
  label_parent : ∀ c p, T.parent c = some p → getState T σ c ≠ .kUninitialized →
    ∀ k < T.depth p, (σ c).bitstring.chars k = (σ p).bitstring.chars k
  child_char : ∀ c p, T.parent c = some p → getState T σ c ≠ .kUninitialized →
    T.depth p < kCapacity → (σ c).bitstring.chars (T.depth p) ≠ 0 →
      (σ c).overflow = false ∧
        (σ c).bitstring.chars (T.depth p) < (σ p).bitstring.chars (T.depth p)
  siblings : ∀ c c' p, T.parent c = some p → T.parent c' = some p →
    getState T σ c = .kAssigned → getState T σ c' = .kAssigned →
      (σ c).bitstring.chars (T.depth p) = (σ c').bitstring.chars (T.depth p) → c = c'

variable {T}

/-! ### The state of a class -/

section States

variable {σ : κ → SubtypeCheckBits} {c : κ}

theorem state_eq_assigned_iff :
    getState T σ c = .kAssigned ↔
      (σ c).overflow = false ∧ (∃ k, (σ c).bitstring.chars k ≠ 0) ∧ T.depth c ≤ kCapacity ∧
        (0 < T.depth c → (σ c).bitstring.chars (T.depth c - 1) ≠ 0) :=
  getState_eq_assigned_iff _

theorem state_eq_uninitialized_iff :
    getState T σ c = .kUninitialized ↔
      (σ c).overflow = false ∧ ∀ k, (σ c).bitstring.chars k = 0 :=
  getState_eq_uninitialized_iff _

theorem state_eq_overflowed_iff : getState T σ c = .kOverflowed ↔ (σ c).overflow = true :=
  getState_eq_overflowed_iff _

@[simp]
theorem bitstringAndOf_getSubtypeCheckInfo : (getSubtypeCheckInfo T σ c).bitstringAndOf = σ c :=
  rfl

@[simp]
theorem depth_getSubtypeCheckInfo : (getSubtypeCheckInfo T σ c).depth = T.depth c := rfl

theorem getSubtypeCheckInfo_congr {σ' : κ → SubtypeCheckBits} (h : σ' c = σ c) :
    getSubtypeCheckInfo T σ' c = getSubtypeCheckInfo T σ c := by
  unfold getSubtypeCheckInfo getSubtypeCheckInfoAtDepth
  rw [h]

theorem state_congr {σ' : κ → SubtypeCheckBits} (h : σ' c = σ c) :
    getState T σ' c = getState T σ c := by
  unfold getState
  rw [getSubtypeCheckInfo_congr h]

/-- A class that is Assigned or Overflowed and not Overflowed is Assigned. -/
theorem state_eq_assigned_of_overflow
    (h : getState T σ c = .kAssigned ∨ getState T σ c = .kOverflowed)
    (hof : (σ c).overflow = false) : getState T σ c = .kAssigned := by
  rcases h with h | h
  · exact h
  · rw [state_eq_overflowed_iff, hof] at h
    cases h

/-- The root is never Initialized. -/
theorem state_of_depth_eq_zero (hd : T.depth c = 0) (h : getState T σ c ≠ .kUninitialized) :
    getState T σ c = .kAssigned ∨ getState T σ c = .kOverflowed := by
  cases hof : (σ c).overflow
  · left
    rw [Ne, state_eq_uninitialized_iff, not_and, not_forall] at h
    exact state_eq_assigned_iff.2 ⟨hof, h hof, by omega, fun h0 => absurd h0 (by omega)⟩
  · exact Or.inr (state_eq_overflowed_iff.2 hof)

theorem getSubtypeCheckInfo_eq {info : SubtypeCheckInfo} (hd : info.depth = T.depth c)
    (hb : σ c = info.bitstringAndOf) : getSubtypeCheckInfo T σ c = info := by
  unfold getSubtypeCheckInfo getSubtypeCheckInfoAtDepth create
  rw [hb, ← hd]

/-- Two moves of a class's bits that `Advances` allows make one. -/
theorem advances_trans {σ₁ σ₂ σ₃ : κ → SubtypeCheckBits}
    (h₁ : Advances (getSubtypeCheckInfo T σ₁ c) (getSubtypeCheckInfo T σ₂ c))
    (h₂ : Advances (getSubtypeCheckInfo T σ₂ c) (getSubtypeCheckInfo T σ₃ c)) :
    Advances (getSubtypeCheckInfo T σ₁ c) (getSubtypeCheckInfo T σ₃ c) :=
  Advances.trans (by rfl) (by rfl) h₁ h₂

/-- An Assigned class has a nonzero character at its parent's depth. -/
theorem chars_ne_zero_of_assigned {q : κ} (hq : T.parent c = some q)
    (hc : getState T σ c = .kAssigned) : (σ c).bitstring.chars (T.depth q) ≠ 0 := by
  have hd := T.depth_parent c q hq
  have hlast := (state_eq_assigned_iff.1 hc).2.2.2 (by omega)
  rwa [hd, Nat.add_sub_cancel] at hlast

end States

/-! ### What the invariants say -/

/-- An Assigned or Initialized class has an Assigned parent. -/
theorem Inv.parent_assigned {σ : κ → SubtypeCheckBits} (h : Inv T σ) {c p : κ}
    (hp : T.parent c = some p)
    (hc : getState T σ c = .kAssigned ∨ getState T σ c = .kInitialized) :
    getState T σ p = .kAssigned := by
  have hof : (σ c).overflow = false := by
    rw [← Bool.not_eq_true, ← state_eq_overflowed_iff]
    rcases hc with hc | hc <;> rw [hc] <;> simp
  exact (h.parent_state c p hp (by rcases hc with hc | hc <;> rw [hc] <;> simp)).2 hof

/-! ### The invariants make a path labelling -/

theorem Inv.pathLabelling {σ : κ → SubtypeCheckBits} (h : Inv T σ) :
    PathLabelling T kCapacity (fun c => getState T σ c ≠ .kUninitialized)
      (fun c => getState T σ c = .kAssigned) (fun c => (σ c).bitstring.chars) where
  labelled_parent c p hp hc := by
    rcases (h.parent_state c p hp hc).1 with hs | hs <;> rw [hs] <;> simp
  assigned_parent c p hp hc :=
    (h.parent_state c p hp (by rw [hc]; simp)).2 (state_eq_assigned_iff.1 hc).1
  labelled_of_assigned c hc := by
    rw [hc]
    simp
  depth_le_of_assigned c hc := (state_eq_assigned_iff.1 hc).2.2.1
  label_parent := h.label_parent
  label_ne_zero c p hp hc := by
    have hd := T.depth_parent c p hp
    have hlast := (state_eq_assigned_iff.1 hc).2.2.2 (by omega)
    rwa [hd, Nat.add_sub_cancel] at hlast
  assigned_of_label_ne_zero c p hp hc hd hne := by
    have hof := (h.child_char c p hp hc hd hne).1
    have hdc := T.depth_parent c p hp
    refine state_eq_assigned_iff.2 ⟨hof, ⟨_, hne⟩, by omega, fun _ => ?_⟩
    rwa [hdc, Nat.add_sub_cancel]
  label_injective := h.siblings

theorem cut_eq_chars_getPathToRoot (σ : κ → SubtypeCheckBits) (c : κ) (k : Nat) :
    cut T kCapacity (fun c => (σ c).bitstring.chars) c k =
      (getSubtypeCheckInfo T σ c).getPathToRoot.chars k := by
  rw [cut, chars_getPathToRoot]
  rfl

/-- Under the invariants, `IsSubtypeOf` of an initialized source and an Assigned target answers
whether the target is the source or one of its ancestors. -/
theorem isSubtypeOf_iff {σ : κ → SubtypeCheckBits} (h : Inv T σ) {s t : κ}
    (hs : getState T σ s ≠ .kUninitialized) (ht : getState T σ t = .kAssigned) :
    ((getSubtypeCheckInfo T σ s).isSubtypeOf (getSubtypeCheckInfo T σ t) = .kSubtypeOf ↔
        T.AncestorOrSelf t s) ∧
      ((getSubtypeCheckInfo T σ s).isSubtypeOf (getSubtypeCheckInfo T σ t) = .kNotSubtypeOf ↔
        ¬T.AncestorOrSelf t s) := by
  have hcut : T.AncestorOrSelf t s ↔ ∀ k < (getSubtypeCheckInfo T σ t).depth,
      (getSubtypeCheckInfo T σ s).getPathToRoot.chars k =
        (getSubtypeCheckInfo T σ t).getBitString.chars k := by
    rw [ancestorOrSelf_iff_cut_eq h.pathLabelling hs ht]
    simp only [cut_eq_chars_getPathToRoot]
    rfl
  rw [isSubtypeOf_eq _ _ hs ht]
  by_cases hanc : T.AncestorOrSelf t s
  · rw [if_pos (hcut.1 hanc)]
    simp [hanc]
  · rw [if_neg (fun h' => hanc (hcut.2 h'))]
    simp [hanc]

/-- Assigned classes have pairwise different paths to the root. -/
theorem Inv.eq_of_getPathToRoot_eq {σ : κ → SubtypeCheckBits} (h : Inv T σ) {a b : κ}
    (ha : getState T σ a = .kAssigned) (hb : getState T σ b = .kAssigned)
    (hab : (getSubtypeCheckInfo T σ a).getPathToRoot = (getSubtypeCheckInfo T σ b).getPathToRoot) :
    a = b :=
  eq_of_cut_eq h.pathLabelling ha hb fun k => by
    rw [cut_eq_chars_getPathToRoot, cut_eq_chars_getPathToRoot, hab]

/-! ### The invariants hold at the start and after `CreateRoot` -/

theorem inv_initialBits : Inv T initialBits := by
  have hz : ∀ (c : κ) k, (initialBits c : SubtypeCheckBits).bitstring.chars k = 0 :=
    fun _ k => chars_empty k
  have hu : ∀ c, getState T initialBits c = .kUninitialized :=
    fun c => state_eq_uninitialized_iff.2 ⟨rfl, hz c⟩
  refine ⟨fun c k _ => hz c k, fun c hc _ => ?_, fun c _ _ hc => absurd (hu c) hc,
    fun c _ _ hc => absurd (hu c) hc, fun c _ _ hc => absurd (hu c) hc, fun c _ _ _ _ hc => ?_⟩
  · rw [hu] at hc
    cases hc
  · rw [hu] at hc
    cases hc

/-- The children of an Uninitialized class are Uninitialized. -/
theorem Inv.child_uninitialized {σ : κ → SubtypeCheckBits} (h : Inv T σ) {c p : κ}
    (hp : T.parent c = some p)
    (hps : getState T σ p = .kUninitialized ∨ getState T σ p = .kInitialized) :
    getState T σ c = .kUninitialized := by
  by_contra hc
  rcases (h.parent_state c p hp hc).1 with hs | hs <;> rcases hps with hu | hu <;>
    rw [hs] at hu <;> cases hu

variable [DecidableEq κ]

/-- `CreateRoot` on an Uninitialized root keeps the invariants: the root's children are still
Uninitialized, and nothing else changes. -/
theorem inv_createRoot {σ : κ → SubtypeCheckBits} (h : Inv T σ)
    (hu : getState T σ T.root = .kUninitialized) :
    Inv T (setSubtypeCheckInfo σ T.root createRoot) := by
  have hroot : ∀ k, ((setSubtypeCheckInfo σ T.root createRoot) T.root).bitstring.chars k =
      if k = 0 then 1 else 0 := fun k => by
    rw [setSubtypeCheckInfo, Function.update_self]
    exact chars_createRoot k
  have hother : ∀ {c}, c ≠ T.root → (setSubtypeCheckInfo σ T.root createRoot) c = σ c :=
    fun hc => Function.update_of_ne hc _ _
  -- a class with a parent is not the root, and a child of the root is still Uninitialized
  have hne : ∀ {c p}, T.parent c = some p → c ≠ T.root := fun hp hc => by
    rw [← T.parent_eq_none_iff] at hc
    rw [hc] at hp
    cases hp
  have hchild : ∀ {c p}, T.parent c = some p →
      getState T (setSubtypeCheckInfo σ T.root createRoot) c ≠ .kUninitialized → p ≠ T.root :=
    fun hp hc hpr => hc (by
      rw [state_congr (hother (hne hp))]
      exact h.child_uninitialized hp (Or.inl (hpr ▸ hu)))
  refine ⟨fun c k hk => ?_, fun c hc hd => ?_, fun c p hp hc => ?_, fun c p hp hc => ?_,
    fun c p hp hc => ?_, fun c c' p hp hp' hc hc' => ?_⟩
  · by_cases hcr : c = T.root
    · subst hcr
      rw [hroot, if_neg (by rw [T.depth_root] at hk; omega)]
    · rw [hother hcr]
      exact h.chars_above c k hk
  · by_cases hcr : c = T.root
    · subst hcr
      rw [hroot, T.depth_root, if_pos rfl]
    · rw [state_congr (hother hcr)] at hc
      rw [hother hcr]
      exact h.next_pos c hc hd
  · have hpr := hchild hp hc
    rw [state_congr (hother (hne hp))] at hc
    rw [state_congr (hother hpr), hother (hne hp)]
    exact h.parent_state c p hp hc
  · have hpr := hchild hp hc
    rw [state_congr (hother (hne hp))] at hc
    rw [hother (hne hp), hother hpr]
    exact h.label_parent c p hp hc
  · have hpr := hchild hp hc
    rw [state_congr (hother (hne hp))] at hc
    rw [hother (hne hp), hother hpr]
    exact h.child_char c p hp hc
  · have hpr := hchild hp (by rw [hc]; simp)
    rw [state_congr (hother (hne hp))] at hc
    rw [state_congr (hother (hne hp'))] at hc'
    rw [hother (hne hp), hother (hne hp')]
    exact h.siblings c c' p hp hp' hc hc'

variable (T) in
/-- What `InitializeOrAssign(klass, assign)` leaves from bits that keep the invariants: bits that
keep them, the class's own info as the result, the class initialized (Assigned or Overflowed when
assigning), and every class's bits moved only as `Advances` allows. -/
structure InitializeOrAssignSpec (σ : κ → SubtypeCheckBits) (klass : κ) (assign : Bool)
    (r : SubtypeCheckInfo × (κ → SubtypeCheckBits)) : Prop where
  inv : Inv T r.2
  info_eq : r.1 = getSubtypeCheckInfo T r.2 klass
  state_ne : getState T r.2 klass ≠ .kUninitialized
  state_of_assign : assign = true →
    getState T r.2 klass = .kAssigned ∨ getState T r.2 klass = .kOverflowed
  advances : ∀ c, Advances (getSubtypeCheckInfo T σ c) (getSubtypeCheckInfo T r.2 c)

/-! ### The invariants after `CreateChild` -/

variable (T) in
/-- The bits `InitializeOrAssign` leaves when `CreateChild` makes `klass` a child of `parent`. -/
def childBits (σ : κ → SubtypeCheckBits) (klass parent : κ) (assign : Bool) :
    κ → SubtypeCheckBits :=
  setSubtypeCheckInfo
    (setSubtypeCheckInfo σ klass ((getSubtypeCheckInfo T σ parent).createChild assign).1) parent
    ((getSubtypeCheckInfo T σ parent).createChild assign).2

theorem childBits_parent (σ : κ → SubtypeCheckBits) (klass p : κ) (assign : Bool) :
    childBits T σ klass p assign p =
      ((getSubtypeCheckInfo T σ p).createChild assign).2.bitstringAndOf := by
  rw [childBits, setSubtypeCheckInfo, Function.update_self]

theorem childBits_of_ne {σ : κ → SubtypeCheckBits} {klass p c : κ} {assign : Bool} (hcp : c ≠ p)
    (hck : c ≠ klass) : childBits T σ klass p assign c = σ c := by
  rw [childBits, setSubtypeCheckInfo, Function.update_of_ne hcp, setSubtypeCheckInfo,
    Function.update_of_ne hck]

variable (T) in
/-- Where `InitializeOrAssign` calls `CreateChild`: the parent is assigned (or overflowed) and the
class is not yet Assigned or Overflowed. -/
structure ChildStep (σ : κ → SubtypeCheckBits) (klass parent : κ) : Prop where
  inv : Inv T σ
  parent_eq : T.parent klass = some parent
  parent_state : getState T σ parent = .kAssigned ∨ getState T σ parent = .kOverflowed
  state : getState T σ klass = .kUninitialized ∨ getState T σ klass = .kInitialized

namespace ChildStep

variable {σ : κ → SubtypeCheckBits} {klass p : κ} {assign : Bool} (h : ChildStep T σ klass p)
include h

omit [DecidableEq κ] in
theorem depth_eq : T.depth klass = T.depth p + 1 := T.depth_parent klass p h.parent_eq

omit [DecidableEq κ] in
theorem ne : klass ≠ p := fun he => by
  have := h.depth_eq
  rw [he] at this
  omega

theorem childBits_klass :
    childBits T σ klass p assign klass =
      ((getSubtypeCheckInfo T σ p).createChild assign).1.bitstringAndOf := by
  rw [childBits, setSubtypeCheckInfo, Function.update_of_ne h.ne, setSubtypeCheckInfo,
    Function.update_self]

theorem info_klass :
    getSubtypeCheckInfo T (childBits T σ klass p assign) klass =
      ((getSubtypeCheckInfo T σ p).createChild assign).1 :=
  getSubtypeCheckInfo_eq (by rw [depth_createChild_fst, h.depth_eq]; rfl) h.childBits_klass

omit h in
theorem info_parent :
    getSubtypeCheckInfo T (childBits T σ klass p assign) p =
      ((getSubtypeCheckInfo T σ p).createChild assign).2 :=
  getSubtypeCheckInfo_eq (by rw [depth_createChild_snd]; rfl) (childBits_parent σ klass p assign)

/-! Only `klass` gets new bits; the parent gets a larger `Next` and keeps its state. -/

theorem state_of_ne {c : κ} (hck : c ≠ klass) :
    getState T (childBits T σ klass p assign) c = getState T σ c := by
  by_cases hcp : c = p
  · subst hcp
    unfold getState
    rw [info_parent]
    exact getState_createChild_snd assign h.parent_state
  · exact state_congr (childBits_of_ne hcp hck)

theorem overflow_of_ne {c : κ} (hck : c ≠ klass) :
    (childBits T σ klass p assign c).overflow = (σ c).overflow := by
  by_cases hcp : c = p
  · subst hcp
    rw [childBits_parent]
    exact overflow_createChild_snd assign
  · rw [childBits_of_ne hcp hck]

theorem chars_of_ne {c : κ} (hck : c ≠ klass) (k : Nat) :
    (childBits T σ klass p assign c).bitstring.chars k =
      if c = p ∧ k = T.depth p ∧ (getSubtypeCheckInfo T σ p).TakesNext assign then
        (σ c).bitstring.chars k + 1
      else (σ c).bitstring.chars k := by
  by_cases hcp : c = p
  · subst hcp
    rw [childBits_parent]
    refine (chars_createChild_snd assign k).trans ?_
    simp only [true_and]
    rfl
  · rw [childBits_of_ne hcp hck, if_neg (fun h' => hcp h'.1)]

theorem chars_of_ne_of_ne {c : κ} (hck : c ≠ klass) {k : Nat} (hk : c = p → k ≠ T.depth p) :
    (childBits T σ klass p assign c).bitstring.chars k = (σ c).bitstring.chars k := by
  rw [h.chars_of_ne hck, if_neg (fun h' => hk h'.1 h'.2.1)]

theorem chars_le {c : κ} (hck : c ≠ klass) (k : Nat) :
    (σ c).bitstring.chars k ≤ (childBits T σ klass p assign c).bitstring.chars k := by
  rw [h.chars_of_ne hck]
  split_ifs <;> omega

theorem chars_klass (k : Nat) :
    (childBits T σ klass p assign klass).bitstring.chars k =
      if k = T.depth p then
        (if (getSubtypeCheckInfo T σ p).TakesNext assign then (σ p).bitstring.chars k else 0)
      else if k = T.depth p + 1 then (if T.depth p + 1 < kCapacity then 1 else 0)
      else (σ p).bitstring.chars k := by
  rw [h.childBits_klass]
  exact chars_createChild_fst assign k

theorem overflow_klass :
    (childBits T σ klass p assign klass).overflow =
      if (getSubtypeCheckInfo T σ p).TakesNext assign then false
      else (assign || (σ p).overflow) := by
  rw [h.childBits_klass]
  exact overflow_createChild_fst assign

/-- A nonzero character of `klass` at the parent's depth is the parent's old `Next`. -/
theorem takesNext_of_chars_ne (hne : (childBits T σ klass p assign klass).bitstring.chars
    (T.depth p) ≠ 0) :
    (getSubtypeCheckInfo T σ p).TakesNext assign ∧
      (childBits T σ klass p assign klass).bitstring.chars (T.depth p) =
        (σ p).bitstring.chars (T.depth p) := by
  rw [h.chars_klass, if_pos rfl] at hne ⊢
  by_cases ht : (getSubtypeCheckInfo T σ p).TakesNext assign
  · exact ⟨ht, if_pos ht⟩
  · rw [if_neg ht] at hne
    exact absurd rfl hne

/-- `klass` and an Assigned sibling cannot share the character at the parent's depth: the
sibling's is below the parent's old `Next`, which `klass` takes. -/
theorem klass_ne_sibling {c : κ} (hc : T.parent c = some p) (hck : c ≠ klass)
    (hk : getState T (childBits T σ klass p assign) klass = .kAssigned)
    (hcs : getState T (childBits T σ klass p assign) c = .kAssigned)
    (heq : (childBits T σ klass p assign klass).bitstring.chars (T.depth p) =
      (childBits T σ klass p assign c).bitstring.chars (T.depth p)) : False := by
  have hcp : c ≠ p := fun he => by
    have := T.depth_parent c p hc
    rw [he] at this
    omega
  obtain ⟨ht, hkc⟩ := h.takesNext_of_chars_ne (chars_ne_zero_of_assigned h.parent_eq hk)
  have hd : T.depth p < kCapacity := ((takesNext_iff assign).1 ht).2.1
  rw [h.state_of_ne hck] at hcs
  rw [childBits_of_ne hcp hck] at heq
  have hlt := (h.inv.child_char c p hc (by rw [hcs]; simp) hd
    (chars_ne_zero_of_assigned hc hcs)).2
  omega

theorem inv_childBits : Inv T (childBits T σ klass p assign) := by
  have hd := h.depth_eq
  -- a class whose parent is `klass` is still Uninitialized
  have hchild : ∀ {c q}, T.parent c = some q →
      getState T (childBits T σ klass p assign) c ≠ .kUninitialized → c ≠ klass → q ≠ klass :=
    fun hq hc hck hqk => hc (by
      subst hqk
      rw [h.state_of_ne hck]
      exact h.inv.child_uninitialized hq h.state)
  -- the parent of a class other than `klass` is shallower than `p` when the class is `p`
  have hdepth : ∀ {c q}, T.parent c = some q → c = p → T.depth q < T.depth p :=
    fun {c q} hq hcp => by
      have := T.depth_parent c q hq
      rw [← hcp]
      omega
  refine ⟨fun c k hk => ?_, fun c hc hdc => ?_, fun c q hq hc => ?_, fun c q hq hc => ?_,
    fun c q hq hc => ?_, fun c c' q hq hq' hc hc' => ?_⟩
  · -- chars_above
    by_cases hck : c = klass
    · subst hck
      rw [h.chars_klass, if_neg (by omega), if_neg (by omega)]
      exact h.inv.chars_above p k (by omega)
    · rw [h.chars_of_ne_of_ne hck (fun hcp => by subst hcp; omega)]
      exact h.inv.chars_above c k hk
  · -- next_pos
    by_cases hck : c = klass
    · subst hck
      rw [hd, h.chars_klass, if_neg (by omega), if_pos rfl, if_pos (by omega)]
    · rw [h.state_of_ne hck] at hc
      exact Nat.le_trans (h.inv.next_pos c hc hdc) (h.chars_le hck _)
  · -- parent_state
    by_cases hck : c = klass
    · subst hck
      obtain rfl : q = p := Option.some_injective _ (hq.symm.trans h.parent_eq)
      rw [h.state_of_ne h.ne.symm]
      refine ⟨h.parent_state, fun hof => state_eq_assigned_of_overflow h.parent_state ?_⟩
      rw [h.overflow_klass] at hof
      split_ifs at hof with ht
      · exact ((takesNext_iff assign).1 ht).2.2.1
      · exact (Bool.or_eq_false_iff.1 hof).2
    · have hqk := hchild hq hc hck
      rw [h.state_of_ne hck] at hc
      rw [h.state_of_ne hqk, h.overflow_of_ne hck]
      exact h.inv.parent_state c q hq hc
  · -- label_parent
    intro k hk
    by_cases hck : c = klass
    · subst hck
      obtain rfl : q = p := Option.some_injective _ (hq.symm.trans h.parent_eq)
      rw [h.chars_klass, if_neg (by omega), if_neg (by omega),
        h.chars_of_ne_of_ne h.ne.symm (fun _ => by omega)]
    · have hqk := hchild hq hc hck
      rw [h.state_of_ne hck] at hc
      rw [h.chars_of_ne_of_ne hck (fun hcp => by have := hdepth hq hcp; omega),
        h.chars_of_ne_of_ne hqk (fun hqp => by subst hqp; omega)]
      exact h.inv.label_parent c q hq hc k hk
  · -- child_char
    intro hdq hne
    by_cases hck : c = klass
    · subst hck
      obtain rfl : q = p := Option.some_injective _ (hq.symm.trans h.parent_eq)
      obtain ⟨ht, hkc⟩ := h.takesNext_of_chars_ne hne
      rw [h.overflow_klass, if_pos ht, hkc, h.chars_of_ne h.ne.symm, if_pos ⟨rfl, rfl, ht⟩]
      exact ⟨rfl, Nat.lt_succ_self _⟩
    · have hqk := hchild hq hc hck
      rw [h.state_of_ne hck] at hc
      rw [h.chars_of_ne_of_ne hck (fun hcp => by have := hdepth hq hcp; omega)] at hne ⊢
      obtain ⟨hof, hlt⟩ := h.inv.child_char c q hq hc hdq hne
      exact ⟨by rw [h.overflow_of_ne hck]; exact hof, Nat.lt_of_lt_of_le hlt (h.chars_le hqk _)⟩
  · -- siblings
    intro heq
    by_cases hck : c = klass <;> by_cases hck' : c' = klass
    · rw [hck, hck']
    · subst hck
      obtain rfl : q = p := Option.some_injective _ (hq.symm.trans h.parent_eq)
      exact (h.klass_ne_sibling hq' hck' hc hc' heq).elim
    · subst hck'
      obtain rfl : q = p := Option.some_injective _ (hq'.symm.trans h.parent_eq)
      exact (h.klass_ne_sibling hq hck hc' hc heq.symm).elim
    · rw [h.state_of_ne hck] at hc
      rw [h.state_of_ne hck'] at hc'
      rw [h.chars_of_ne_of_ne hck (fun hcp => by have := hdepth hq hcp; omega),
        h.chars_of_ne_of_ne hck' (fun hcp => by have := hdepth hq' hcp; omega)] at heq
      exact h.inv.siblings c c' q hq hq' hc hc' heq

theorem state_klass_ne :
    getState T (childBits T σ klass p assign) klass ≠ .kUninitialized := by
  unfold getState
  rw [h.info_klass]
  exact getState_createChild_fst_ne assign h.parent_state

theorem state_klass_of_assign :
    getState T (childBits T σ klass p true) klass = .kAssigned ∨
      getState T (childBits T σ klass p true) klass = .kOverflowed := by
  unfold getState
  rw [h.info_klass]
  exact getState_createChild_fst_of_assign h.parent_state fun ha hd => h.inv.next_pos p ha hd

/-- `CreateChild` moves `klass` out of Uninitialized, or out of Initialized when assigning, and
changes only the `Next` of its parent. -/
theorem advances
    (hk : getState T σ klass = .kUninitialized ∨
      (getState T σ klass = .kInitialized ∧ assign = true)) (c : κ) :
    Advances (getSubtypeCheckInfo T σ c) (getSubtypeCheckInfo T (childBits T σ klass p assign) c) := by
  by_cases hck : c = klass
  · subst hck
    rcases hk with hu | ⟨hi, ha⟩
    · exact Or.inr (Or.inl ⟨hu, h.state_klass_ne⟩)
    · subst ha
      exact Or.inr (Or.inr (Or.inl ⟨hi, h.state_klass_of_assign⟩))
  by_cases hcp : c = p
  · subst hcp
    rw [info_parent]
    rcases h.parent_state with ha | hof
    · have hs : (getSubtypeCheckInfo T σ c).getState = .kAssigned := ha
      refine Or.inr (Or.inr (Or.inr ⟨hs, ?_, (getPathToRoot_createChild_snd assign).symm⟩))
      rw [getState_createChild_snd assign h.parent_state, hs]
    · -- an Overflowed parent keeps its `Next`
      have hnt : ¬(getSubtypeCheckInfo T σ c).TakesNext assign := fun ht => by
        have hf := ((takesNext_iff assign).1 ht).2.2.1
        rw [bitstringAndOf_getSubtypeCheckInfo] at hf
        rw [state_eq_overflowed_iff, hf] at hof
        cases hof
      rw [createChild_snd, if_neg hnt]
      exact Advances.refl _
  · rw [getSubtypeCheckInfo_congr (childBits_of_ne hcp hck)]
    exact Advances.refl _

/-- The `CreateChild` branch of `InitializeOrAssign`, from bits that earlier calls advanced. -/
theorem initializeOrAssignSpec {σ₀ : κ → SubtypeCheckBits}
    (hk : getState T σ klass = .kUninitialized ∨
      (getState T σ klass = .kInitialized ∧ assign = true))
    (hadv : ∀ c, Advances (getSubtypeCheckInfo T σ₀ c) (getSubtypeCheckInfo T σ c)) :
    InitializeOrAssignSpec T σ₀ klass assign
      (((getSubtypeCheckInfo T σ p).createChild assign).1, childBits T σ klass p assign) where
  inv := h.inv_childBits
  info_eq := h.info_klass.symm
  state_ne := h.state_klass_ne
  state_of_assign ha := by
    subst ha
    exact h.state_klass_of_assign
  advances c := advances_trans (hadv c) (h.advances hk c)

end ChildStep

/-! ### `InitializeOrAssign` -/

section InitializeOrAssign

variable {σ : κ → SubtypeCheckBits}

omit [DecidableEq κ] in
theorem InitializeOrAssignSpec.depth_eq {klass : κ} {assign : Bool}
    {r : SubtypeCheckInfo × (κ → SubtypeCheckBits)} (h : InitializeOrAssignSpec T σ klass assign r) :
    r.1.depth = T.depth klass := by
  rw [h.info_eq]
  rfl

omit [DecidableEq κ] in
/-- The root's branch when it is already initialized: nothing changes. -/
theorem initializeOrAssignSpec_of_root (h : Inv T σ) {klass : κ} (assign : Bool)
    (hp : T.parent klass = none) (hs : getState T σ klass ≠ .kUninitialized) :
    InitializeOrAssignSpec T σ klass assign (getSubtypeCheckInfo T σ klass, σ) where
  inv := h
  info_eq := rfl
  state_ne := hs
  state_of_assign _ := by
    have hd : T.depth klass = 0 := by
      rw [(T.parent_eq_none_iff klass).1 hp, T.depth_root]
    exact state_of_depth_eq_zero hd hs
  advances c := Advances.refl _

/-- The root's branch when it is Uninitialized: `CreateRoot` assigns it. -/
theorem initializeOrAssignSpec_createRoot (h : Inv T σ)
    (hu : getState T σ T.root = .kUninitialized) (assign : Bool) :
    InitializeOrAssignSpec T σ T.root assign (createRoot, setSubtypeCheckInfo σ T.root createRoot) := by
  have hinfo : getSubtypeCheckInfo T (setSubtypeCheckInfo σ T.root createRoot) T.root =
      createRoot := by
    refine getSubtypeCheckInfo_eq (by rw [T.depth_root]; rfl) ?_
    rw [setSubtypeCheckInfo, Function.update_self]
  have hstate : getState T (setSubtypeCheckInfo σ T.root createRoot) T.root = .kAssigned := by
    rw [getState, hinfo]
    exact getState_createRoot
  refine ⟨inv_createRoot h hu, hinfo.symm, by rw [hstate]; simp, fun _ => Or.inl hstate,
    fun c => ?_⟩
  by_cases hc : c = T.root
  · subst hc
    exact Or.inr (Or.inl ⟨hu, by rw [getState] at hstate; rw [hstate]; simp⟩)
  · have hb : setSubtypeCheckInfo σ T.root createRoot c = σ c := Function.update_of_ne hc _ _
    dsimp only
    rw [getSubtypeCheckInfo_congr hb]
    exact Advances.refl _

/-- `InitializeOrAssign` keeps the invariants, returns the class's info, leaves the class
initialized (Assigned or Overflowed when assigning) and moves bits only as `Advances` allows.  By
the function's own induction: the superclass is assigned first, and then `klass` is either left
alone or made its child by `CreateChild`. -/
theorem initializeOrAssign_spec (h : Inv T σ) (klass : κ) (assign : Bool) :
    InitializeOrAssignSpec T σ klass assign (initializeOrAssign T σ klass assign) := by
  fun_induction initializeOrAssign T σ klass assign with
  | case1 klass assign hp rootSci hs => exact initializeOrAssignSpec_of_root h assign hp hs
  | case2 klass assign hp rootSci hs =>
    obtain rfl := (T.parent_eq_none_iff klass).1 hp
    exact initializeOrAssignSpec_createRoot h (not_not.1 hs) assign
  | case3 klass assign p hp r σ' d sci psci st hc created ih =>
    -- the source reads both infos at the depth the parent's info returned, the tree's depth
    have hd : d = T.depth p := ih.depth_eq
    have hsci : sci = getSubtypeCheckInfo T σ' klass := by
      simp only [sci, hd, ← T.depth_parent klass p hp]
      rfl
    have hpsci : psci = getSubtypeCheckInfo T σ' p := by
      simp only [psci, hd]
      rfl
    have hk : getState T σ' klass = .kUninitialized ∨
        (getState T σ' klass = .kInitialized ∧ assign = true) := by
      rw [getState, ← hsci]
      exact hc
    have step : ChildStep T σ' klass p :=
      ⟨ih.inv, hp, ih.state_of_assign rfl, hk.imp_right And.left⟩
    have hcreated : created = (getSubtypeCheckInfo T σ' p).createChild assign := by
      simp only [created, hpsci]
    rw [hcreated]
    exact step.initializeOrAssignSpec hk ih.advances
  | case4 klass assign p hp r σ' d sci st hc ih =>
    have hd : d = T.depth p := ih.depth_eq
    have hsci : sci = getSubtypeCheckInfo T σ' klass := by
      simp only [sci, hd, ← T.depth_parent klass p hp]
      rfl
    -- `klass` is Initialized and not assigning, or already Assigned or Overflowed
    have hk : ¬(getState T σ' klass = .kUninitialized ∨
        (getState T σ' klass = .kInitialized ∧ assign = true)) := by
      rw [getState, ← hsci]
      exact hc
    rw [hsci]
    refine ⟨ih.inv, rfl, fun hu => hk (Or.inl hu), fun ha => ?_, ih.advances⟩
    subst ha
    cases hs : getState T σ' klass <;> simp_all
  
end InitializeOrAssign

/-! ### Runs of calls -/

section Runs

variable {σ : κ → SubtypeCheckBits}

theorem initializeOrAssignSpec_apply (h : Inv T σ) :
    ∀ op : Op κ, Inv T (op.apply T σ).2 ∧
      ∀ c, Advances (getSubtypeCheckInfo T σ c) (getSubtypeCheckInfo T (op.apply T σ).2 c)
  | .ensureInitialized klass =>
    let hs := initializeOrAssign_spec h klass false
    ⟨hs.inv, hs.advances⟩
  | .ensureAssigned klass =>
    let hs := initializeOrAssign_spec h klass true
    ⟨hs.inv, hs.advances⟩

/-- Every run keeps the invariants. -/
theorem inv_run : ∀ (ops : List (Op κ)) {σ : κ → SubtypeCheckBits}, Inv T σ → Inv T (run T σ ops)
  | [], _, h => h
  | op :: ops, _, h => inv_run ops (initializeOrAssignSpec_apply h op).1

/-- Along every run each class's bits move only as `Advances` allows. -/
theorem advances_run : ∀ (ops : List (Op κ)) {σ : κ → SubtypeCheckBits}, Inv T σ → ∀ c,
    Advances (getSubtypeCheckInfo T σ c) (getSubtypeCheckInfo T (run T σ ops) c)
  | [], _, _, _ => Advances.refl _
  | op :: ops, _, h, c =>
    advances_trans ((initializeOrAssignSpec_apply h op).2 c)
      (advances_run ops (initializeOrAssignSpec_apply h op).1 c)

theorem run_take_of_le (ops : List (Op κ)) {m n : Nat} (hmn : m ≤ n) :
    run T σ (ops.take n) = run T (run T σ (ops.take m)) ((ops.drop m).take (n - m)) := by
  rw [run, run, run, ← List.foldl_append, ← List.take_add, Nat.add_sub_cancel' hmn]

theorem run_take_succ (ops : List (Op κ)) {i : Nat} {op : Op κ} (hi : ops[i]? = some op) :
    run T σ (ops.take (i + 1)) = (op.apply T (run T σ (ops.take i))).2 := by
  rw [List.take_add_one, hi, run, run, List.foldl_append]
  rfl

variable (T) in
/-- The bits after the first `n` calls of `ops`, made from the start. -/
def bitsAfter (ops : List (Op κ)) (n : Nat) : κ → SubtypeCheckBits :=
  run T initialBits (ops.take n)

variable (T) in
theorem inv_bitsAfter (ops : List (Op κ)) (n : Nat) : Inv T (bitsAfter T ops n) :=
  inv_run _ inv_initialBits

variable (T) in
theorem advances_bitsAfter (ops : List (Op κ)) {m n : Nat} (hmn : m ≤ n) (c : κ) :
    Advances (getSubtypeCheckInfo T (bitsAfter T ops m) c)
      (getSubtypeCheckInfo T (bitsAfter T ops n) c) := by
  rw [bitsAfter, bitsAfter, run_take_of_le ops hmn]
  exact advances_run _ (inv_bitsAfter T ops m) c

/-- A class stays initialized after `EnsureInitialized` on it. -/
theorem state_ne_of_ensureInitialized (ops : List (Op κ)) {s : κ} {i n : Nat}
    (hi : ops[i]? = some (.ensureInitialized s)) (hn : i < n) :
    getState T (bitsAfter T ops n) s ≠ .kUninitialized := by
  have hs := initializeOrAssign_spec (inv_bitsAfter T ops i) s false
  have hafter : bitsAfter T ops (i + 1) = (initializeOrAssign T (bitsAfter T ops i) s false).2 :=
    run_take_succ ops hi
  have hne : getState T (bitsAfter T ops (i + 1)) s ≠ .kUninitialized := by
    rw [hafter]
    exact hs.state_ne
  exact Advances.getState_ne (by rfl) (advances_bitsAfter T ops hn s) hne

/-- A class stays Assigned with the same path after an `EnsureAssigned` on it that returned
`kAssigned`. -/
theorem assigned_of_ensureAssigned (ops : List (Op κ)) {t : κ} {j n : Nat}
    (hj : ops[j]? = some (.ensureAssigned t))
    (hret : (SubtypeCheck.ensureAssigned T (bitsAfter T ops j) t).1 = .kAssigned) (hn : j < n) :
    getState T (bitsAfter T ops n) t = .kAssigned ∧
      (getSubtypeCheckInfo T (bitsAfter T ops n) t).getPathToRoot =
        (getSubtypeCheckInfo T (bitsAfter T ops (j + 1)) t).getPathToRoot := by
  have hs := initializeOrAssign_spec (inv_bitsAfter T ops j) t true
  have hafter : bitsAfter T ops (j + 1) = (initializeOrAssign T (bitsAfter T ops j) t true).2 :=
    run_take_succ ops hj
  have ha : getState T (bitsAfter T ops (j + 1)) t = .kAssigned := by
    rw [hafter, getState, ← hs.info_eq]
    exact hret
  exact Advances.assigned (by rfl) (advances_bitsAfter T ops hn t) ha

end Runs

/-! ### The subtype check along a run -/

theorem subtype_check_sound_and_stable (T : RootedTree κ) (ops : List (Op κ)) :
    (∀ n c p, T.parent c = some p →
        (getState T (bitsAfter T ops n) c = .kAssigned ∨
          getState T (bitsAfter T ops n) c = .kInitialized) →
        getState T (bitsAfter T ops n) p = .kAssigned) ∧
    (∀ n a b, getState T (bitsAfter T ops n) a = .kAssigned →
        getState T (bitsAfter T ops n) b = .kAssigned →
        (getSubtypeCheckInfo T (bitsAfter T ops n) a).getPathToRoot =
          (getSubtypeCheckInfo T (bitsAfter T ops n) b).getPathToRoot → a = b) ∧
    (∀ m n c, m ≤ n →
        Advances (getSubtypeCheckInfo T (bitsAfter T ops m) c)
          (getSubtypeCheckInfo T (bitsAfter T ops n) c)) ∧
    (∀ s t i j n₁ n₂, ops[i]? = some (.ensureInitialized s) → ops[j]? = some (.ensureAssigned t) →
        (SubtypeCheck.ensureAssigned T (bitsAfter T ops j) t).1 = .kAssigned →
        i < n₁ → j < n₁ → i < n₂ → j < n₂ →
        ((getSubtypeCheckInfo T (bitsAfter T ops n₁) s).isSubtypeOf
            (getSubtypeCheckInfo T (bitsAfter T ops n₂) t) = .kSubtypeOf ↔
          T.AncestorOrSelf t s) ∧
        ((getSubtypeCheckInfo T (bitsAfter T ops n₁) s).isSubtypeOf
            (getSubtypeCheckInfo T (bitsAfter T ops n₂) t) = .kNotSubtypeOf ↔
          ¬T.AncestorOrSelf t s) ∧
        (getSubtypeCheckInfo T (bitsAfter T ops n₁) s).isSubtypeOf
            (getSubtypeCheckInfo T (bitsAfter T ops n₂) t) ≠ .kUnknownSubtypeOf) := by
  refine ⟨fun n c p hp hc => (inv_bitsAfter T ops n).parent_assigned hp hc,
    fun n a b ha hb hab => (inv_bitsAfter T ops n).eq_of_getPathToRoot_eq ha hb hab,
    fun m n c hmn => advances_bitsAfter T ops hmn c,
    fun s t i j n₁ n₂ hi hj hret hi₁ hj₁ hi₂ hj₂ => ?_⟩
  -- at the first read `t` is Assigned with the path it has at the second, which is all the
  -- check reads of the target
  obtain ⟨ht₁, hpath₁⟩ := assigned_of_ensureAssigned ops hj hret hj₁
  obtain ⟨ht₂, hpath₂⟩ := assigned_of_ensureAssigned ops hj hret hj₂
  have htarget : (getSubtypeCheckInfo T (bitsAfter T ops n₁) s).isSubtypeOf
      (getSubtypeCheckInfo T (bitsAfter T ops n₂) t) =
      (getSubtypeCheckInfo T (bitsAfter T ops n₁) s).isSubtypeOf
        (getSubtypeCheckInfo T (bitsAfter T ops n₁) t) :=
    isSubtypeOf_congr_target _ (ht₂.trans ht₁.symm) (hpath₂.trans hpath₁.symm) rfl
  have hsound := isSubtypeOf_iff (inv_bitsAfter T ops n₁)
    (state_ne_of_ensureInitialized ops hi hi₁) ht₁
  rw [htarget]
  refine ⟨hsound.1, hsound.2, fun hu => ?_⟩
  by_cases hanc : T.AncestorOrSelf t s
  · rw [hsound.1.2 hanc] at hu
    cases hu
  · rw [hsound.2.2 hanc] at hu
    cases hu

/-- `java.lang.Object` with two subclasses. -/
def objectWithTwoSubclasses : RootedTree (Fin 3) where
  parent c := if c = 0 then none else some 0
  depth c := if c = 0 then 0 else 1
  root := 0
  parent_eq_none_iff := by decide
  depth_root := rfl
  depth_parent := by decide

/-- After `EnsureInitialized` of a subclass and `EnsureAssigned` of `java.lang.Object`, which
returns `kAssigned`, the check finds the subclass a subtype of `java.lang.Object`. -/
theorem subtype_check_sound_and_stable_sample :
    (SubtypeCheck.ensureAssigned objectWithTwoSubclasses
        (bitsAfter objectWithTwoSubclasses [.ensureInitialized 1, .ensureAssigned 0] 1) 0).1 =
      .kAssigned ∧
    (getSubtypeCheckInfo objectWithTwoSubclasses
        (bitsAfter objectWithTwoSubclasses [.ensureInitialized 1, .ensureAssigned 0] 2) 1).isSubtypeOf
      (getSubtypeCheckInfo objectWithTwoSubclasses
        (bitsAfter objectWithTwoSubclasses [.ensureInitialized 1, .ensureAssigned 0] 2) 0) =
      .kSubtypeOf := by
  have hret : (SubtypeCheck.ensureAssigned objectWithTwoSubclasses
      (bitsAfter objectWithTwoSubclasses [.ensureInitialized 1, .ensureAssigned 0] 1) 0).1 =
      .kAssigned := by
    decide +kernel
  refine ⟨hret, ?_⟩
  have hanc : objectWithTwoSubclasses.AncestorOrSelf 0 1 :=
    RootedTree.AncestorOrSelf.parent rfl (RootedTree.AncestorOrSelf.refl 0)
  exact ((subtype_check_sound_and_stable objectWithTwoSubclasses
    [.ensureInitialized 1, .ensureAssigned 0]).2.2.2 1 0 0 1 2 2 rfl rfl hret
      (by decide) (by decide) (by decide) (by decide)).1.2 hanc

end SubtypeCheck

end Art
