import Mathlib

/-!
# Ordered maps and sets as sorted lists

`std::map` and `std::set` iterate in increasing key order.  A map is modelled by its entries in
that order and a set by its elements; `SortedMap.insert` and `SortedSet.insert` keep the order.

A loop that walks another map and folds each of its entries into the entry of the same key
(`FindOrAdd`, then an update through the pointer it returns) is a pointwise join when the update
is a join: `lookupIn_foldlM` is that fact, for any step that updates the entry of its own key only,
read through abstraction functions into a join semilattice, with a missing key read as `⊥`.

A vector of records found by a field that no two share (`KeyedList`) is looked up with
`List.find?`; the lemmas say what a lookup sees after `set` and `++`.
-/

namespace Except

theorem bind_eq_ok {ε : Type*} {α β : Type _} {x : Except ε α} {f : α → Except ε β} {b : β} :
    x >>= f = .ok b ↔ ∃ a, x = .ok a ∧ f a = .ok b := by
  cases x with
  | error e =>
    constructor
    · intro h
      cases h
    · rintro ⟨_, h, _⟩
      cases h
  | ok a =>
    constructor
    · exact fun h => ⟨a, rfl, h⟩
    · rintro ⟨_, h, hf⟩
      cases h
      exact hf

end Except

namespace SortedMap

variable {κ ν μ : Type*} [LinearOrder κ]

/-- `m[k] = v`: the entry of `k` replaced, or added at its place in the order. -/
def insert (k : κ) (v : ν) : List (κ × ν) → List (κ × ν)
  | [] => [(k, v)]
  | e :: m => if k < e.1 then (k, v) :: e :: m else if k = e.1 then (k, v) :: m else e :: insert k v m

/-- `FindOrAdd(k, v)` followed by `f` on the entry it points to: the entry holds what `f` left,
whether `f` finished or stopped early. -/
def updateE (m : List (κ × ν)) (k : κ) (v : ν) (f : ν → Except ν ν) :
    Except (List (κ × ν)) (List (κ × ν)) :=
  match f ((m.lookup k).getD v) with
  | .ok v' => .ok (insert k v' m)
  | .error v' => .error (insert k v' m)

/-- The keys are strictly increasing. -/
def Ordered (m : List (κ × ν)) : Prop := (m.map Prod.fst).Pairwise (· < ·)

theorem lookup_cons_eq (k : κ) (v : ν) (m : List (κ × ν)) (k' : κ) :
    ((k, v) :: m).lookup k' = if k' = k then some v else m.lookup k' := by
  rw [List.lookup_cons]
  by_cases h : k' = k
  · simp [h]
  · simp [h, beq_eq_false_iff_ne.mpr h]

@[simp] theorem lookup_insert (k : κ) (v : ν) (m : List (κ × ν)) (k' : κ) :
    (insert k v m).lookup k' = if k' = k then some v else m.lookup k' := by
  induction m with
  | nil => exact lookup_cons_eq k v [] k'
  | cons e m ih =>
    obtain ⟨k₀, v₀⟩ := e
    simp only [insert]
    by_cases hlt : k < k₀
    · rw [if_pos hlt, lookup_cons_eq]
    rw [if_neg hlt]
    by_cases heq : k = k₀
    · -- the entry of `k` is replaced
      subst heq
      rw [if_pos rfl, lookup_cons_eq, lookup_cons_eq]
      by_cases h : k' = k <;> simp [h]
    · rw [if_neg heq, lookup_cons_eq, lookup_cons_eq, ih]
      by_cases h : k' = k₀
      · subst h
        simp [Ne.symm heq]
      · simp [h]

theorem mem_keys_insert {k k' : κ} {v : ν} {m : List (κ × ν)} :
    k' ∈ (insert k v m).map Prod.fst ↔ k' = k ∨ k' ∈ m.map Prod.fst := by
  induction m with
  | nil => simp [insert]
  | cons e m ih =>
    simp only [insert]
    split_ifs with hlt heq
    · simp
    · subst heq
      simp
    · simp only [List.map_cons, List.mem_cons, ih]
      tauto

theorem Ordered.insert {m : List (κ × ν)} (hm : Ordered m) (k : κ) (v : ν) :
    Ordered (insert k v m) := by
  induction m with
  | nil => simp [Ordered, SortedMap.insert]
  | cons e m ih =>
    have hcons := List.pairwise_cons.mp hm
    simp only [SortedMap.insert]
    split_ifs with hlt heq
    · refine List.pairwise_cons.mpr ⟨?_, hm⟩
      intro b hb
      rcases List.mem_cons.mp hb with rfl | hb
      · exact hlt
      · exact hlt.trans (hcons.1 b hb)
    · subst heq
      exact List.pairwise_cons.mpr ⟨hcons.1, hcons.2⟩
    · have hgt : e.1 < k := lt_of_le_of_ne (not_lt.mp hlt) (Ne.symm heq)
      refine List.pairwise_cons.mpr ⟨?_, ih hcons.2⟩
      intro b hb
      rcases mem_keys_insert.mp hb with rfl | hb
      · exact hgt
      · exact hcons.1 b hb

theorem Ordered.nodup {m : List (κ × ν)} (hm : Ordered m) : (m.map Prod.fst).Nodup :=
  List.Pairwise.imp ne_of_lt hm

theorem Ordered.tail {e : κ × ν} {m : List (κ × ν)} (hm : Ordered (e :: m)) : Ordered m :=
  (List.pairwise_cons.mp hm).2

theorem lookup_eq_none_of_not_mem {k : κ} {m : List (κ × ν)} (hk : k ∉ m.map Prod.fst) :
    m.lookup k = none := by
  rw [List.lookup_eq_none_iff]
  intro p hp
  have : k ≠ p.1 := fun h => hk (h ▸ List.mem_map_of_mem hp)
  simpa using this

/-- In a map without repeated keys, an entry is what a lookup of its key finds. -/
theorem lookup_eq_some_of_mem {k : κ} {v : ν} {m : List (κ × ν)} (hm : (m.map Prod.fst).Nodup)
    (h : (k, v) ∈ m) : m.lookup k = some v := by
  induction m with
  | nil => cases h
  | cons e m ih =>
    have hnodup := List.nodup_cons.mp hm
    rw [lookup_cons_eq]
    rcases List.mem_cons.mp h with rfl | h
    · simp
    · have hk : k ≠ e.1 := fun hk => hnodup.1 (hk ▸ List.mem_map_of_mem (f := Prod.fst) h)
      rw [if_neg hk]
      exact ih hnodup.2 h

theorem Ordered.updateE {m m' : List (κ × ν)} (hm : Ordered m) {k : κ} {v : ν}
    {f : ν → Except ν ν} (h : updateE m k v f = .ok m') : Ordered m' := by
  unfold SortedMap.updateE at h
  split at h
  · cases h
    exact hm.insert _ _
  · cases h

section Join

variable {L : Type*} [SemilatticeSup L] [OrderBot L]

/-- The value at `k` read through `A`, `⊥` where there is none. -/
def lookupIn (A : ν → L) (m : List (κ × ν)) (k : κ) : WithBot L := (m.lookup k).map A

omit [SemilatticeSup L] [OrderBot L] in
@[simp] theorem lookupIn_nil (A : ν → L) (k : κ) : lookupIn A ([] : List (κ × ν)) k = ⊥ := rfl

omit [SemilatticeSup L] [OrderBot L] in
theorem lookupIn_ne_bot_iff (A : ν → L) (m : List (κ × ν)) (k : κ) :
    lookupIn A m k ≠ ⊥ ↔ (m.lookup k).isSome := by
  unfold lookupIn
  cases m.lookup k with
  | none => exact ⟨fun h => absurd rfl h, fun h => by cases h⟩
  | some v => exact ⟨fun _ => rfl, fun _ => WithBot.coe_ne_bot⟩

omit [SemilatticeSup L] [OrderBot L] in
theorem lookupIn_congr {A A' : ν → L} {m : List (κ × ν)}
    (h : ∀ k v, m.lookup k = some v → A v = A' v) (k : κ) : lookupIn A m k = lookupIn A' m k := by
  unfold lookupIn
  cases hk : m.lookup k with
  | none => rfl
  | some v => rw [Option.map_some, Option.map_some, h k v hk]

omit [SemilatticeSup L] [OrderBot L] in
theorem lookupIn_cons (A : ν → L) (e : κ × ν) (m : List (κ × ν)) (k : κ) :
    lookupIn A (e :: m) k = if k = e.1 then ↑(A e.2) else lookupIn A m k := by
  unfold lookupIn
  rw [lookup_cons_eq]
  by_cases hk : k = e.1 <;> simp [hk] <;> rfl

omit [SemilatticeSup L] [OrderBot L] in
theorem lookupIn_insert (A : ν → L) (k : κ) (v : ν) (m : List (κ × ν)) (k' : κ) :
    lookupIn A (insert k v m) k' = if k' = k then ↑(A v) else lookupIn A m k' := by
  unfold lookupIn
  rw [lookup_insert]
  by_cases hk : k' = k <;> simp [hk] <;> rfl

omit [OrderBot L] in
/-- A loop over `o` whose step joins the entry of its own key with the value it carries, and
leaves the others, joins `o` into the map `view` reads off the loop's state, pointwise.  The keys
of `o` are distinct, so each key is joined once; `Inv` is what the step needs and keeps. -/
theorem lookupIn_foldlM {σ ε : Type*} (view : σ → List (κ × ν)) (Inv : σ → Prop) {A : ν → L}
    {B : μ → L} {step : σ → κ × μ → Except ε σ} {o : List (κ × μ)}
    (hstep : ∀ s e s', e ∈ o → Inv s → step s e = .ok s' →
      Inv s' ∧ ∀ k, lookupIn A (view s') k =
        if k = e.1 then lookupIn A (view s) k ⊔ ↑(B e.2) else lookupIn A (view s) k)
    (ho : (o.map Prod.fst).Nodup) {s s' : σ} (hs : Inv s)
    (h : o.foldlM step s = .ok s') :
    Inv s' ∧ ∀ k, lookupIn A (view s') k = lookupIn A (view s) k ⊔ lookupIn B o k := by
  induction o generalizing s with
  | nil =>
    cases h
    exact ⟨hs, fun k => by simp⟩
  | cons e o ih =>
    rw [List.foldlM_cons] at h
    -- the first step, then the rest of the loop from the state it returns
    cases h₁ : step s e with
    | error err => rw [h₁] at h; cases h
    | ok s₁ =>
      rw [h₁] at h
      obtain ⟨hinv₁, hs₁⟩ := hstep s e s₁ (List.mem_cons_self ..) hs h₁
      have hnodup := List.nodup_cons.mp ho
      obtain ⟨hinv', hs'⟩ := ih (fun s e s' he => hstep s e s' (List.mem_cons_of_mem _ he))
        hnodup.2 hinv₁ h
      refine ⟨hinv', fun k => ?_⟩
      rw [hs', hs₁, lookupIn_cons]
      split_ifs with hk
      · -- the key of the first entry is not in the rest
        subst hk
        have : lookupIn B o e.1 = ⊥ := by
          unfold lookupIn
          rw [lookup_eq_none_of_not_mem hnodup.1]
          rfl
        rw [this, sup_bot_eq]
      · rfl

/-- `updateE` with an update that joins what it is given, from a value read as `⊥` where the key
is missing, is a step of `lookupIn_foldlM`, for the invariant that every value satisfies `P`. -/
theorem updateE_step {A : ν → L} {B : μ → L} {P : ν → Prop} {v₀ : ν} {f : ν → μ → Except ν ν}
    {w : μ} (hA₀ : A v₀ = ⊥) (hP₀ : P v₀)
    (hf : ∀ v v', P v → f v w = .ok v' → P v' ∧ A v' = A v ⊔ B w)
    {m m' : List (κ × ν)} {k : κ} (hm : ∀ k v, m.lookup k = some v → P v)
    (h : updateE m k v₀ (fun v => f v w) = .ok m') :
    (∀ k v, m'.lookup k = some v → P v) ∧
      ∀ k', lookupIn A m' k' = if k' = k then lookupIn A m k' ⊔ ↑(B w) else lookupIn A m k' := by
  dsimp only [updateE] at h
  cases hv : f ((m.lookup k).getD v₀) w with
  | error v' => rw [hv] at h; cases h
  | ok v' =>
    rw [hv] at h
    cases h
    -- the value the update started from: the entry of `k`, or `v₀`
    have hstart : P ((m.lookup k).getD v₀) ∧
        (↑(A ((m.lookup k).getD v₀) ⊔ B w) : WithBot L) = lookupIn A m k ⊔ ↑(B w) := by
      unfold lookupIn
      cases hk : m.lookup k with
      | none =>
        refine ⟨hP₀, ?_⟩
        show ((A v₀ ⊔ B w : L) : WithBot L) = ⊥ ⊔ ↑(B w)
        rw [hA₀, bot_sup_eq, bot_sup_eq]
      | some v => exact ⟨hm k v hk, WithBot.coe_sup _ _⟩
    obtain ⟨hP', hA'⟩ := hf _ _ hstart.1 hv
    refine ⟨fun k' v hk' => ?_, fun k' => ?_⟩
    · rw [lookup_insert] at hk'
      split_ifs at hk' with hk
      · cases hk'
        exact hP'
      · exact hm k' v hk'
    · rw [lookupIn_insert]
      split_ifs with hk
      · subst hk
        rw [hA', hstart.2]
      · rfl

end Join

end SortedMap

namespace WithBot

/-- Reading an absent value as `⊥` takes joins to joins. -/
theorem unbotD_bot_sup {L : Type*} [SemilatticeSup L] [OrderBot L] (x y : WithBot L) :
    (x ⊔ y).unbotD ⊥ = x.unbotD ⊥ ⊔ y.unbotD ⊥ := by
  induction x using WithBot.recBotCoe <;> induction y using WithBot.recBotCoe <;>
    simp [← WithBot.coe_sup]

end WithBot

namespace Option

/-- Choosing the first present value is right-commutative where the values it may choose between
agree. -/
theorem or_right_comm_of_agree {α : Type*} {x y z : Option α}
    (h : ∀ u v, x.or y = some u → z = some v → u = v) : (x.or y).or z = (x.or z).or y := by
  cases x with
  | some _ => rfl
  | none =>
    cases y with
    | none => simp
    | some u =>
      cases z with
      | none => rfl
      | some v => simp [h u v rfl rfl]

end Option

namespace SortedSet

variable {κ : Type*} [LinearOrder κ]

/-- `s.insert(a)`: `a` added at its place in the order, unless it is there. -/
def insert (a : κ) : List κ → List κ
  | [] => [a]
  | b :: s => if a < b then a :: b :: s else if a = b then b :: s else b :: insert a s

/-- `s.lower_bound(a)`: the first element not below `a`. -/
def lowerBound (s : List κ) (a : κ) : Option κ := s.find? (fun b => a ≤ b)

@[simp] theorem mem_insert {a x : κ} {s : List κ} : x ∈ insert a s ↔ x = a ∨ x ∈ s := by
  induction s with
  | nil => simp [insert]
  | cons b s ih =>
    simp only [insert]
    split_ifs with hlt heq
    · simp
    · subst heq
      simp only [List.mem_cons]
      tauto
    · simp only [List.mem_cons, ih]
      tauto

theorem pairwise_insert {s : List κ} (hs : s.Pairwise (· < ·)) (a : κ) :
    (insert a s).Pairwise (· < ·) := by
  induction s with
  | nil => simp [insert]
  | cons b s ih =>
    have hcons := List.pairwise_cons.mp hs
    simp only [insert]
    split_ifs with hlt heq
    · refine List.pairwise_cons.mpr ⟨?_, hs⟩
      intro c hc
      rcases List.mem_cons.mp hc with rfl | hc
      · exact hlt
      · exact hlt.trans (hcons.1 c hc)
    · exact hs
    · have hgt : b < a := lt_of_le_of_ne (not_lt.mp hlt) (Ne.symm heq)
      refine List.pairwise_cons.mpr ⟨?_, ih hcons.2⟩
      intro c hc
      rcases mem_insert.mp hc with rfl | hc
      · exact hgt
      · exact hcons.1 c hc

/-- On a sorted set, `lower_bound` finds `a` exactly when `a` is an element. -/
theorem lowerBound_eq_some_iff {s : List κ} (hs : s.Pairwise (· < ·)) (a : κ) :
    lowerBound s a = some a ↔ a ∈ s := by
  induction s with
  | nil => simp [lowerBound]
  | cons b s ih =>
    have hcons := List.pairwise_cons.mp hs
    unfold lowerBound at ih ⊢
    rw [List.find?_cons]
    by_cases hab : a ≤ b
    · simp only [hab, decide_true, Option.some.injEq, List.mem_cons]
      constructor
      · intro h
        exact Or.inl h.symm
      · rintro (h | h)
        · exact h.symm
        · exact absurd (hab.trans_lt (hcons.1 a h)) (lt_irrefl a)
    · simp only [hab, decide_false, List.mem_cons, ih hcons.2]
      constructor
      · exact Or.inr
      · rintro (rfl | h)
        · exact absurd le_rfl hab
        · exact h

/-- Past `lower_bound(a)` a sorted set holds nothing below `a`. -/
theorem le_of_mem_dropWhile {s : List κ} (hs : s.Pairwise (· < ·)) {a x : κ}
    (hx : x ∈ s.dropWhile (· < a)) : a ≤ x := by
  induction s with
  | nil => simp at hx
  | cons b s ih =>
    have hcons := List.pairwise_cons.mp hs
    by_cases hba : b < a
    · rw [List.dropWhile_cons_of_pos (by simpa using hba)] at hx
      exact ih hcons.2 hx
    · rw [List.dropWhile_cons_of_neg (by simpa using hba)] at hx
      rcases List.mem_cons.mp hx with rfl | hx
      · exact not_lt.mp hba
      · exact (not_lt.mp hba).trans (hcons.1 x hx).le

theorem mem_foldl_insert {x : κ} {l s : List κ} :
    x ∈ l.foldl (fun s a => insert a s) s ↔ x ∈ s ∨ x ∈ l := by
  induction l generalizing s with
  | nil => simp
  | cons a l ih =>
    rw [List.foldl_cons, ih, mem_insert, List.mem_cons]
    tauto

theorem pairwise_foldl_insert {s : List κ} (hs : s.Pairwise (· < ·)) (l : List κ) :
    (l.foldl (fun s a => insert a s) s).Pairwise (· < ·) := by
  induction l generalizing s with
  | nil => exact hs
  | cons a l ih => exact ih (pairwise_insert hs a)

theorem toFinset_map_insert {β : Type*} [DecidableEq β] (f : κ → β) (a : κ) (s : List κ) :
    ((insert a s).map f).toFinset = Insert.insert (f a) (s.map f).toFinset := by
  ext b
  simp only [List.mem_toFinset, List.mem_map, mem_insert, Finset.mem_insert]
  constructor
  · rintro ⟨x, rfl | hx, rfl⟩
    · exact Or.inl rfl
    · exact Or.inr ⟨x, hx, rfl⟩
  · rintro (rfl | ⟨x, hx, rfl⟩)
    · exact ⟨a, Or.inl rfl, rfl⟩
    · exact ⟨x, Or.inr hx, rfl⟩

theorem toFinset_map_foldl_insert {β : Type*} [DecidableEq β] (f : κ → β) (l s : List κ) :
    ((l.foldl (fun s a => insert a s) s).map f).toFinset = (s.map f).toFinset ∪ (l.map f).toFinset := by
  induction l generalizing s with
  | nil => simp
  | cons a l ih =>
    rw [List.foldl_cons, ih, toFinset_map_insert, List.map_cons, List.toFinset_cons,
      Finset.insert_union, Finset.union_insert]

end SortedSet

namespace KeyedList

variable {α κ : Type*} [DecidableEq κ] {key : α → κ} {l : List α}

theorem find?_eq_some_iff (hl : (l.map key).Nodup) {k : κ} {x : α} :
    l.find? (fun y => key y == k) = some x ↔ x ∈ l ∧ key x = k := by
  constructor
  · intro h
    exact ⟨List.mem_of_find?_eq_some h, by simpa using List.find?_some h⟩
  · rintro ⟨hx, rfl⟩
    induction l with
    | nil => cases hx
    | cons y l ih =>
      have hnodup := List.nodup_cons.mp hl
      rcases List.mem_cons.mp hx with rfl | hx
      · exact List.find?_cons_of_pos (by simp)
      · have hne : key y ≠ key x := fun h => hnodup.1 (h ▸ List.mem_map_of_mem hx)
        rw [List.find?_cons_of_neg (by simpa using hne)]
        exact ih hnodup.2 hx

theorem find?_eq_none_iff {k : κ} : l.find? (fun y => key y == k) = none ↔ k ∉ l.map key := by
  rw [List.find?_eq_none]
  simp only [beq_iff_eq, List.mem_map, not_exists, not_and]

theorem find?_getElem (hl : (l.map key).Nodup) {i : Nat} (hi : i < l.length) :
    l.find? (fun y => key y == key l[i]) = some l[i] :=
  (find?_eq_some_iff hl).mpr ⟨List.getElem_mem hi, rfl⟩

/-- Replacing a record by one with the same key changes what that key finds, and only that. -/
theorem find?_set (hl : (l.map key).Nodup) {i : Nat} (hi : i < l.length) {x : α}
    (hx : key x = key l[i]) (k : κ) :
    (l.set i x).find? (fun y => key y == k) =
      if k = key x then some x else l.find? (fun y => key y == k) := by
  have hmap : (l.set i x).map key = l.map key := by
    rw [List.map_set, hx, ← List.getElem_map key (h := by simpa using hi), List.set_getElem_self]
  have hl' : ((l.set i x).map key).Nodup := hmap ▸ hl
  split_ifs with hk
  · subst hk
    exact (find?_eq_some_iff hl').mpr ⟨List.mem_set hi x, rfl⟩
  · cases hfind : l.find? (fun y => key y == k) with
    | none =>
      rw [find?_eq_none_iff, hmap]
      exact find?_eq_none_iff.mp hfind
    | some y =>
      obtain ⟨hy, rfl⟩ := (find?_eq_some_iff hl).mp hfind
      refine (find?_eq_some_iff hl').mpr ⟨?_, rfl⟩
      obtain ⟨j, hj, rfl⟩ := List.getElem_of_mem hy
      have hji : j ≠ i := fun h => hk (by subst h; exact hx.symm)
      rw [List.mem_iff_getElem]
      exact ⟨j, by simpa using hj, by rw [List.getElem_set_ne (Ne.symm hji)]⟩

end KeyedList
