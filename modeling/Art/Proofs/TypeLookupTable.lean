import Art.Dex.TypeLookupTable
import Art.Lib.LinearProbing
import Art.Lib.ByteMemory
import Art.Proofs.BitMemory

/-!
# The type lookup table finds the classes it was built from

`Create` keeps one invariant (`Inv`) over the class definitions it has placed, in the order it
placed them: each sits in its own entry, which holds its descriptor's offset, its index and its
hash bits, and the class definitions with one initial position form a chain, in placement order,
that starts at that position.  The first stage adds one-entry chains at empty initial positions
(`Inv.placeAtHome`); the second appends to a chain whose start the first stage filled
(`Inv.insertConflict`), and both loops of that step return.

From any non-empty entry `Lookup` walks the rest of a chain, so it returns whatever string and hash
it is given; it answers an index only after comparing the string with that class definition's
descriptor (`lookup_sound`).  Asked for a descriptor with its hash it walks that descriptor's chain
from its start and answers its class definition (`lookup_descriptor`), as long as no two
descriptors compare equal and `mask_bits` is at most `15`.  With `16`, every such lookup reaches
the undefined shift.
-/

namespace Art

namespace TypeLookupTable

open LinkedChain Entry

/-! ## The fields of an entry -/

section Fields

variable {m : Nat}

theorem getLsbD_getMask (m k : Nat) :
    (getMask m).getLsbD k = (decide (k < 32) && decide (k < m)) := by
  unfold getMask
  simp only [BitVec.getLsbD_not, BitVec.getLsbD_shiftLeft, BitVec.getLsbD_allOnes]
  by_cases hk : k < 32 <;> by_cases hkm : k < m <;> simp [hk, hkm]
  omega

theorem toNat_and_getMask (x : BitVec 32) (hm : m ≤ 32) :
    (x &&& getMask m).toNat = x.toNat % 2 ^ m := by
  apply Nat.eq_of_testBit_eq
  intro k
  rw [Nat.testBit_mod_two_pow, BitVec.testBit_toNat, BitVec.testBit_toNat, BitVec.getLsbD_and,
    getLsbD_getMask]
  by_cases hk : k < m
  · simp [hk, show k < 32 by omega]
  · simp [hk]

theorem toNat_and_getMask_lt (x : BitVec 32) (hm : m ≤ 32) : (x &&& getMask m).toNat < 2 ^ m := by
  rw [toNat_and_getMask x hm]
  exact Nat.mod_lt _ (Nat.two_pow_pos m)

theorem and_getMask_of_lt {x : BitVec 32} (hm : m ≤ 32) (hx : x.toNat < 2 ^ m) :
    x &&& getMask m = x := by
  apply BitVec.eq_of_toNat_eq
  rw [toNat_and_getMask x hm, Nat.mod_eq_of_lt hx]

/-- Masking commutes with addition: the sum modulo `2 ^ m` reads only the summands' low bits. -/
theorem add_and_getMask (x y : BitVec 32) (hm : m ≤ 32) :
    (x + (y &&& getMask m)) &&& getMask m = (x + y) &&& getMask m := by
  have hdvd : 2 ^ m ∣ 2 ^ 32 := Nat.pow_dvd_pow 2 hm
  apply BitVec.eq_of_toNat_eq
  rw [toNat_and_getMask _ hm, toNat_and_getMask _ hm, BitVec.toNat_add, BitVec.toNat_add,
    toNat_and_getMask _ hm, Nat.mod_mod_of_dvd _ hdvd, Nat.mod_mod_of_dvd _ hdvd,
    Nat.add_mod_mod]

theorem xor_and_getMask_eq_zero_iff (a b : BitVec 32) :
    (a ^^^ b) &&& getMask m = 0 ↔ a &&& getMask m = b &&& getMask m := by
  have hdistrib : (a ^^^ b) &&& getMask m = (a &&& getMask m) ^^^ (b &&& getMask m) := by
    apply BitVec.eq_of_getLsbD_eq
    intro k _
    simp only [BitVec.getLsbD_and, BitVec.getLsbD_xor]
    cases a.getLsbD k <;> cases b.getLsbD k <;> simp
  rw [hdistrib]
  exact BitVec.xor_eq_zero_iff

variable {off hash idx δ : BitVec 32}

@[simp]
theorem strOffset_make : (make off hash idx m).strOffset = off := rfl

@[simp]
theorem strOffset_setNextPosDelta (e : Entry) : (e.setNextPosDelta δ).strOffset = e.strOffset :=
  rfl

theorem getNextPosDelta_make : (make off hash idx m).getNextPosDelta m = 0 := by
  apply BitVec.eq_of_getLsbD_eq
  intro k _
  simp only [getNextPosDelta, make, BitVec.getLsbD_and, BitVec.getLsbD_shiftLeft, getLsbD_getMask]
  by_cases hkm : k < m <;> simp [hkm]

theorem isLast_make : (make off hash idx m).isLast m = true := by
  simp [isLast, getNextPosDelta_make]

/-- The index comes back out of the packed word when it fits in `mask_bits` bits. -/
theorem getClassDefIdx_make (hm : m ≤ 16) (hidx : idx.toNat < 2 ^ m) :
    (make off hash idx m).getClassDefIdx m = idx := by
  apply BitVec.eq_of_getLsbD_eq
  intro k hk
  simp only [getClassDefIdx, make, BitVec.getLsbD_and, BitVec.getLsbD_ushiftRight,
    BitVec.getLsbD_shiftLeft, BitVec.getLsbD_or, BitVec.getLsbD_not, getLsbD_getMask]
  by_cases hkm : k < m
  · simp [hkm, hk, show m + k < 32 by omega]
  · simp [hkm, BitVec.getLsbD_eq_false_of_toNat_lt hidx (not_lt.1 hkm)]

/-- The hash bits an entry keeps are those `Lookup` compares with. -/
theorem getHashBits_make (hidx : idx.toNat < 2 ^ m) :
    (make off hash idx m).getHashBits m = (hash <<< m) >>> (2 * m) := by
  apply BitVec.eq_of_getLsbD_eq
  intro k _
  simp only [getHashBits, make, BitVec.getLsbD_ushiftRight, BitVec.getLsbD_shiftLeft,
    BitVec.getLsbD_or, BitVec.getLsbD_and, BitVec.getLsbD_not, getLsbD_getMask]
  by_cases hkm : 2 * m + k < 32
  · simp [hkm, BitVec.getLsbD_eq_false_of_toNat_lt hidx (show m ≤ 2 * m + k - m by omega),
      show ¬(2 * m + k < m) by omega, show ¬(2 * m + k - m < m) by omega]
    omega
  · simp [hkm]

theorem getNextPosDelta_setNextPosDelta (e : Entry) (hm : m ≤ 32) (hδ : δ.toNat < 2 ^ m) :
    (e.setNextPosDelta δ).getNextPosDelta m = e.getNextPosDelta m ||| δ := by
  simp only [getNextPosDelta, setNextPosDelta, BitVec.and_or_distrib_right,
    and_getMask_of_lt hm hδ]

theorem getClassDefIdx_setNextPosDelta (e : Entry) (hδ : δ.toNat < 2 ^ m) :
    (e.setNextPosDelta δ).getClassDefIdx m = e.getClassDefIdx m := by
  apply BitVec.eq_of_getLsbD_eq
  intro k hk
  simp only [getClassDefIdx, setNextPosDelta, BitVec.getLsbD_and, BitVec.getLsbD_ushiftRight,
    BitVec.getLsbD_or, BitVec.getLsbD_eq_false_of_toNat_lt hδ (show m ≤ m + k by omega),
    Bool.or_false]

theorem getHashBits_setNextPosDelta (e : Entry) (hδ : δ.toNat < 2 ^ m) :
    (e.setNextPosDelta δ).getHashBits m = e.getHashBits m := by
  apply BitVec.eq_of_getLsbD_eq
  intro k hk
  simp only [getHashBits, setNextPosDelta, BitVec.getLsbD_ushiftRight, BitVec.getLsbD_or,
    BitVec.getLsbD_eq_false_of_toNat_lt hδ (show m ≤ 2 * m + k by omega), Bool.or_false]

end Fields

/-! ## Chains and the probe for an empty entry -/

section Probe

variable {m : Nat} {entries : BitVec 32 → Entry}

theorem isNone_nextPos (q : BitVec 32) :
    (nextPos m entries q).isNone = (entries q).isLast m := by
  simp only [nextPos]
  split <;> simp_all

theorem nextPos_update_of_ne {x q : BitVec 32} (e : Entry) (hq : q ≠ x) :
    nextPos m (Function.update entries x e) q = nextPos m entries q := by
  simp only [nextPos, Function.update_of_ne hq]

theorem nextPos_of_not_isLast {q : BitVec 32} (h : (entries q).isLast m = false) :
    nextPos m entries q = some ((q + (entries q).getNextPosDelta m) &&& getMask m) := by
  simp [nextPos, h]

/-- Setting the delta from `t` to `x` links `t` to `x`. -/
theorem nextPos_setNextPosDelta {t x : BitVec 32} (hm : m ≤ 32) (ht : t.toNat < 2 ^ m)
    (hx : x.toNat < 2 ^ m) (hne : x ≠ t) (hlast : (entries t).isLast m = true) :
    nextPos m (Function.update entries t
      ((entries t).setNextPosDelta ((x - t) &&& getMask m))) t = some x := by
  have hδ := toNat_and_getMask_lt (x - t) hm
  have hzero : (entries t).getNextPosDelta m = 0 := by simpa [isLast] using hlast
  have hdelta : ((entries t).setNextPosDelta ((x - t) &&& getMask m)).getNextPosDelta m =
      (x - t) &&& getMask m := by
    rw [getNextPosDelta_setNextPosDelta _ hm hδ, hzero]
    exact BitVec.zero_or
  -- the delta is not zero: it would take `t` to itself
  have hround : (t + ((x - t) &&& getMask m)) &&& getMask m = x := by
    rw [add_and_getMask _ _ hm, add_sub_cancel, and_getMask_of_lt hm hx]
  have hne0 : (x - t) &&& getMask m ≠ 0 := by
    intro h0
    rw [h0, add_zero, and_getMask_of_lt hm ht] at hround
    exact hne hround.symm
  have hlinked : (Function.update entries t
      ((entries t).setNextPosDelta ((x - t) &&& getMask m)) t).isLast m = false := by
    simp only [isLast, Function.update_self, hdelta, beq_eq_false_iff_ne]
    exact hne0
  rw [nextPos_of_not_isLast hlinked, Function.update_self, hdelta, hround]

/-- Each step of the probe moves one entry on, around the table. -/
theorem toNat_succ_and_getMask {a : BitVec 32} (hm : m ≤ 16) (ha : a.toNat < 2 ^ m) :
    ((a + 1) &&& getMask m).toNat = (a.toNat + 1) % 2 ^ m := by
  have h16 : 2 ^ m ≤ 2 ^ 16 := Nat.pow_le_pow_right (by decide) hm
  have hone : (1 : BitVec 32).toNat = 1 := rfl
  rw [toNat_and_getMask _ (by omega), BitVec.toNat_add, hone,
    Nat.mod_eq_of_lt (show a.toNat + 1 < 2 ^ 32 by omega)]

theorem findEmptyLoop_spec (hm : m ≤ 32) :
    ∀ {fuel : Nat} {a r : BitVec 32}, findEmptyLoop entries (getMask m) fuel a = some r →
      (entries r).isEmpty = true ∧ r.toNat < 2 ^ m
  | 0, _, _, h => by cases h
  | fuel + 1, a, r, h => by
    unfold findEmptyLoop at h
    dsimp only at h
    split at h
    · cases h
      exact ⟨‹_›, toNat_and_getMask_lt _ hm⟩
    · exact findEmptyLoop_spec hm h

/-- The probe returns once an empty entry lies within its fuel. -/
theorem findEmptyLoop_isSome (hm : m ≤ 16) {f : BitVec 32} (hf : f.toNat < 2 ^ m)
    (hfree : (entries f).isEmpty = true) :
    ∀ {fuel : Nat} {a : BitVec 32}, a.toNat < 2 ^ m →
      LinearProbing.fwd (2 ^ m) ((a.toNat + 1) % 2 ^ m) f.toNat < fuel →
      (findEmptyLoop entries (getMask m) fuel a).isSome
  | 0, _, _, h => absurd h (Nat.not_lt_zero _)
  | fuel + 1, a, ha, h => by
    unfold findEmptyLoop
    dsimp only
    split
    · rfl
    · rename_i htaken
      have hnext := toNat_succ_and_getMask hm ha
      have hlt := toNat_and_getMask_lt (a + 1) (show m ≤ 32 by omega)
      have hfa : f.toNat ≠ ((a + 1) &&& getMask m).toNat := by
        intro hfa
        rw [BitVec.eq_of_toNat_eq hfa] at hfree
        exact htaken hfree
      have hstep := LinearProbing.fwd_succ_left hlt hf hfa
      rw [hnext] at hstep hfa
      exact findEmptyLoop_isSome hm hf hfree hlt (by rw [hnext]; omega)

end Probe

/-! ## What `Create` keeps -/

section Invariant

variable (dex : DexFile) (m : Nat)

/-- The hash `Create` computes for class definition `i`'s descriptor. -/
def hashOf (i : Nat) : BitVec 32 := computeModifiedUtf8Hash (dex.descriptor i)

/-- Its initial position, `hash & mask`. -/
def homeOf (i : Nat) : BitVec 32 := hashOf dex i &&& getMask m

/-- The entries of the class definitions placed, in `order`, with initial position `p`. -/
def chainOf (order : List Nat) (pos : Nat → BitVec 32) (p : BitVec 32) : List (BitVec 32) :=
  (order.filter fun i => homeOf dex m i = p).map pos

/-- The entry of class definition `i`: its descriptor's offset, its index and its hash bits. -/
structure Holds (e : Entry) (i : Nat) : Prop where
  strOffset_eq : e.strOffset = dex.descriptorOffset i
  classDefIdx_eq : e.getClassDefIdx m = BitVec.ofNat 32 i
  hashBits_eq : e.getHashBits m = (hashOf dex i <<< m) >>> (2 * m)

/-- Where the class definitions placed so far, in `order`, are: each once, at its own position
of the table. -/
structure Placed (order : List Nat) (pos : Nat → BitVec 32) : Prop where
  nodup : order.Nodup
  lt : ∀ i ∈ order, i < dex.numClassDefs
  pos_lt : ∀ i ∈ order, (pos i).toNat < 2 ^ m
  inj : ∀ i ∈ order, ∀ j ∈ order, pos i = pos j → i = j

/-- What `Create` keeps: every class definition placed so far sits in the entry at its position,
every non-empty entry is one of them, and those with one initial position are linked, in the
order they were placed, into a chain from that position. -/
structure Inv (entries : BitVec 32 → Entry) (order : List Nat) (pos : Nat → BitVec 32) : Prop
    extends Placed dex m order pos where
  holds : ∀ i ∈ order, Holds dex m (entries (pos i)) i
  occupied : ∀ q, (entries q).isEmpty = false → ∃ i ∈ order, pos i = q
  linked : ∀ p, Linked (nextPos m entries) (chainOf dex m order pos p)
  head : ∀ p q, (chainOf dex m order pos p).head? = some q → q = p

/-- What the first stage of `Create` keeps after class definitions `0 .. k - 1`: those placed are
at their initial positions, and each one left to the second stage shares its initial position
with one placed. -/
structure FirstStage (entries : BitVec 32 → Entry) (conflictClassDefs order : List Nat)
    (pos : Nat → BitVec 32) (k : Nat) : Prop where
  inv : Inv dex m entries order pos
  at_home : ∀ i ∈ order, pos i = homeOf dex m i
  perm : (order ++ conflictClassDefs).Perm (List.range k)
  deferred : ∀ j ∈ conflictClassDefs, ∃ w ∈ order, homeOf dex m w = homeOf dex m j

end Invariant

section Chains

variable {dex : DexFile} {m : Nat} {order : List Nat} {pos : Nat → BitVec 32} {i : Nat}
  {x p : BitVec 32}

theorem toNat_homeOf_lt (hm : m ≤ 32) (i : Nat) : (homeOf dex m i).toNat < 2 ^ m :=
  toNat_and_getMask_lt _ hm

theorem mem_chainOf {q : BitVec 32} :
    q ∈ chainOf dex m order pos p ↔ ∃ i ∈ order, homeOf dex m i = p ∧ pos i = q := by
  simp [chainOf, and_assoc]

theorem length_chainOf_le : (chainOf dex m order pos p).length ≤ order.length := by
  simp only [chainOf, List.length_map]
  exact List.length_filter_le _ _

theorem map_update_of_not_mem (hi : i ∉ order) (l : List Nat) (hl : ∀ j ∈ l, j ∈ order) :
    l.map (Function.update pos i x) = l.map pos :=
  List.map_congr_left fun j hj =>
    Function.update_of_ne (fun hji : j = i => hi (hji ▸ hl j hj)) _ _

/-- Placing `i` adds its position at the end of its own chain. -/
theorem chainOf_snoc_self (hi : i ∉ order) :
    chainOf dex m (order ++ [i]) (Function.update pos i x) (homeOf dex m i) =
      chainOf dex m order pos (homeOf dex m i) ++ [x] := by
  simp only [chainOf, List.filter_append, List.map_append]
  rw [map_update_of_not_mem hi _ fun j hj => (List.mem_filter.1 hj).1]
  simp

/-- and leaves the other chains alone. -/
theorem chainOf_snoc_of_ne (hi : i ∉ order) (hp : homeOf dex m i ≠ p) :
    chainOf dex m (order ++ [i]) (Function.update pos i x) p = chainOf dex m order pos p := by
  simp only [chainOf, List.filter_append, List.map_append]
  rw [map_update_of_not_mem hi _ fun j hj => (List.mem_filter.1 hj).1]
  simp [hp]

theorem Placed.length_lt (h : Placed dex m order pos) (hi : i ∉ order)
    (hin : i < dex.numClassDefs) : order.length < dex.numClassDefs := by
  have hsub : order.toFinset ⊆ (Finset.range dex.numClassDefs).erase i := by
    intro j hj
    rw [List.mem_toFinset] at hj
    exact Finset.mem_erase.2 ⟨fun hji => hi (hji ▸ hj), Finset.mem_range.2 (h.lt j hj)⟩
  have hcard := Finset.card_le_card hsub
  rw [List.toFinset_card_of_nodup h.nodup, Finset.card_erase_of_mem (Finset.mem_range.2 hin),
    Finset.card_range] at hcard
  omega

/-- A class definition placed at a position no earlier one has. -/
theorem Placed.snoc (h : Placed dex m order pos) (hi : i ∉ order) (hin : i < dex.numClassDefs)
    (hx : x.toNat < 2 ^ m) (hfresh : ∀ j ∈ order, pos j ≠ x) :
    Placed dex m (order ++ [i]) (Function.update pos i x) := by
  have hpos : ∀ j ∈ order, Function.update pos i x j = pos j := fun j hj =>
    Function.update_of_ne (fun hji : j = i => hi (hji ▸ hj)) _ _
  refine ⟨List.nodup_append.2 ⟨h.nodup, List.nodup_singleton i, ?_⟩, ?_, ?_, ?_⟩
  · intro a ha b hb
    rw [List.mem_singleton.1 hb]
    exact fun hai => hi (hai ▸ ha)
  · intro j hj
    rcases List.mem_append.1 hj with hj | hj
    · exact h.lt j hj
    · rw [List.mem_singleton.1 hj]
      exact hin
  · intro j hj
    rcases List.mem_append.1 hj with hj | hj
    · rw [hpos j hj]
      exact h.pos_lt j hj
    · rw [List.mem_singleton.1 hj, Function.update_self]
      exact hx
  · intro j hj k hk hjk
    rcases List.mem_append.1 hj with hj | hj <;> rcases List.mem_append.1 hk with hk | hk
    · rw [hpos j hj, hpos k hk] at hjk
      exact h.inj j hj k hk hjk
    · rw [hpos j hj, List.mem_singleton.1 hk, Function.update_self] at hjk
      exact absurd hjk (hfresh j hj)
    · rw [hpos k hk, List.mem_singleton.1 hj, Function.update_self] at hjk
      exact absurd hjk.symm (hfresh k hk)
    · rw [List.mem_singleton.1 hj, List.mem_singleton.1 hk]

end Chains

section Entries

variable {dex : DexFile} {m : Nat} {i : Nat}

theorem holds_make (hm : m ≤ 16) (hi : i < 2 ^ m) :
    Holds dex m (make (dex.descriptorOffset i) (hashOf dex i) (BitVec.ofNat 32 i) m) i := by
  have h16 : 2 ^ m ≤ 2 ^ 16 := Nat.pow_le_pow_right (by decide) hm
  have hidx : (BitVec.ofNat 32 i).toNat < 2 ^ m := by
    rw [BitVec.toNat_ofNat, Nat.mod_eq_of_lt (by omega)]
    exact hi
  exact ⟨rfl, getClassDefIdx_make hm hidx, getHashBits_make hidx⟩

theorem Holds.setNextPosDelta {e : Entry} {δ : BitVec 32} (h : Holds dex m e i)
    (hδ : δ.toNat < 2 ^ m) : Holds dex m (e.setNextPosDelta δ) i :=
  ⟨h.strOffset_eq, (getClassDefIdx_setNextPosDelta e hδ).trans h.classDefIdx_eq,
    (getHashBits_setNextPosDelta e hδ).trans h.hashBits_eq⟩

end Entries

/-! ## The two stages of `Create` keep the invariant -/

section Steps

variable {dex : DexFile} {m : Nat} {entries : BitVec 32 → Entry} {order : List Nat}
  {pos : Nat → BitVec 32} {i : Nat}

theorem Inv.isEmpty_pos (h : Inv dex m entries order pos)
    (hoff : ∀ i < dex.numClassDefs, dex.descriptorOffset i ≠ 0) {j : Nat} (hj : j ∈ order) :
    (entries (pos j)).isEmpty = false := by
  simp only [isEmpty, (h.holds j hj).strOffset_eq, beq_eq_false_iff_ne]
  exact hoff j (h.lt j hj)

theorem Inv.pos_ne_of_isEmpty (h : Inv dex m entries order pos)
    (hoff : ∀ i < dex.numClassDefs, dex.descriptorOffset i ≠ 0) {x : BitVec 32}
    (hx : (entries x).isEmpty = true) : ∀ j ∈ order, pos j ≠ x := by
  intro j hj hjx
  have hpos := h.isEmpty_pos hoff hj
  rw [hjx, hx] at hpos
  cases hpos

/-- An empty entry is on no chain. -/
theorem Inv.ne_of_mem_chainOf (h : Inv dex m entries order pos)
    (hoff : ∀ i < dex.numClassDefs, dex.descriptorOffset i ≠ 0) {x p a : BitVec 32}
    (hx : (entries x).isEmpty = true) (ha : a ∈ chainOf dex m order pos p) : a ≠ x := by
  obtain ⟨j, hj, -, rfl⟩ := mem_chainOf.1 ha
  exact h.pos_ne_of_isEmpty hoff hx j hj

/-- The chain of an empty initial position is empty: a chain starts at its position. -/
theorem Inv.chainOf_eq_nil (h : Inv dex m entries order pos)
    (hoff : ∀ i < dex.numClassDefs, dex.descriptorOffset i ≠ 0) {p : BitVec 32}
    (hp : (entries p).isEmpty = true) : chainOf dex m order pos p = [] := by
  cases hc : chainOf dex m order pos p with
  | nil => rfl
  | cons q rest =>
    have hq : q = p := h.head p q (by rw [hc]; rfl)
    exact absurd hq (h.ne_of_mem_chainOf hoff hp (hc ▸ List.mem_cons_self))

/-- An initial position that a placed class definition has starts a chain. -/
theorem Inv.chainOf_eq_cons (h : Inv dex m entries order pos) {w : Nat} {p : BitVec 32}
    (hw : w ∈ order) (hwhome : homeOf dex m w = p) :
    ∃ rest, chainOf dex m order pos p = p :: rest ∧ rest.length < order.length := by
  have hmem : pos w ∈ chainOf dex m order pos p := mem_chainOf.2 ⟨w, hw, hwhome, rfl⟩
  obtain ⟨q, rest, hc⟩ := List.exists_cons_of_ne_nil (List.ne_nil_of_mem hmem)
  obtain rfl : q = p := h.head p q (by rw [hc]; rfl)
  have hlen : (chainOf dex m order pos q).length ≤ order.length := length_chainOf_le
  rw [hc, List.length_cons] at hlen
  exact ⟨rest, hc, hlen⟩

/-- A placed class definition's initial position is not empty. -/
theorem Inv.isEmpty_homeOf (h : Inv dex m entries order pos)
    (hoff : ∀ i < dex.numClassDefs, dex.descriptorOffset i ≠ 0) (hi : i ∈ order) :
    (entries (homeOf dex m i)).isEmpty = false := by
  obtain ⟨rest, hc, -⟩ := h.chainOf_eq_cons hi rfl
  obtain ⟨j, hj, -, hjpos⟩ := mem_chainOf.1
    (show homeOf dex m i ∈ chainOf dex m order pos (homeOf dex m i) by rw [hc]; simp)
  exact hjpos ▸ h.isEmpty_pos hoff hj

/-- While fewer class definitions are placed than the table has entries, one entry is empty. -/
theorem Inv.exists_empty (h : Inv dex m entries order pos) (hm : m ≤ 16)
    (hlen : order.length < 2 ^ m) : ∃ f : BitVec 32, f.toNat < 2 ^ m ∧ (entries f).isEmpty = true := by
  have h16 : 2 ^ m ≤ 2 ^ 16 := Nat.pow_le_pow_right (by decide) hm
  have hcard : (order.map fun j => (pos j).toNat).toFinset.card < (Finset.range (2 ^ m)).card := by
    rw [Finset.card_range]
    exact lt_of_le_of_lt (List.toFinset_card_le _) (by simpa using hlen)
  obtain ⟨a, ha, hna⟩ := Finset.exists_mem_notMem_of_card_lt_card hcard
  rw [Finset.mem_range] at ha
  have hof : (BitVec.ofNat 32 a).toNat = a := by
    rw [BitVec.toNat_ofNat, Nat.mod_eq_of_lt (by omega)]
  refine ⟨BitVec.ofNat 32 a, by rw [hof]; exact ha, ?_⟩
  by_contra hne
  obtain ⟨j, hj, hjq⟩ := h.occupied _ (by simpa using hne)
  apply hna
  rw [List.mem_toFinset, List.mem_map]
  exact ⟨j, hj, by rw [hjq, hof]⟩

/-- The first stage's step: class definition `i` at its empty initial position starts its
chain. -/
theorem Inv.placeAtHome (h : Inv dex m entries order pos)
    (hoff : ∀ i < dex.numClassDefs, dex.descriptorOffset i ≠ 0) (hm : m ≤ 16)
    (hn : dex.numClassDefs ≤ 2 ^ m) (hi : i ∉ order) (hin : i < dex.numClassDefs)
    (hp : (entries (homeOf dex m i)).isEmpty = true) :
    Inv dex m (Function.update entries (homeOf dex m i)
        (make (dex.descriptorOffset i) (hashOf dex i) (BitVec.ofNat 32 i) m))
      (order ++ [i]) (Function.update pos i (homeOf dex m i)) := by
  have hfresh := h.pos_ne_of_isEmpty hoff hp
  have hpos : ∀ j ∈ order, Function.update pos i (homeOf dex m i) j = pos j := fun j hj =>
    Function.update_of_ne (fun hji : j = i => hi (hji ▸ hj)) _ _
  refine ⟨h.toPlaced.snoc hi hin (toNat_homeOf_lt (by omega) i) hfresh, ?_, ?_, ?_, ?_⟩
  · intro j hj
    rcases List.mem_append.1 hj with hj | hj
    · rw [hpos j hj, Function.update_of_ne (hfresh j hj)]
      exact h.holds j hj
    · rw [List.mem_singleton.1 hj, Function.update_self, Function.update_self]
      exact holds_make hm (by omega)
  · intro q hq
    by_cases hqp : q = homeOf dex m i
    · exact ⟨i, by simp, by rw [Function.update_self, hqp]⟩
    · rw [Function.update_of_ne hqp] at hq
      obtain ⟨j, hj, hjq⟩ := h.occupied q hq
      exact ⟨j, List.mem_append_left _ hj, by rw [hpos j hj, hjq]⟩
  · intro p
    by_cases hip : homeOf dex m i = p
    · -- the new chain is the one entry, the last of its chain
      subst hip
      rw [chainOf_snoc_self hi, h.chainOf_eq_nil hoff hp]
      simp [nextPos, isLast_make]
    · rw [chainOf_snoc_of_ne hi hip]
      exact (h.linked p).congr fun a ha =>
        nextPos_update_of_ne _ (h.ne_of_mem_chainOf hoff hp ha)
  · intro p q hq
    by_cases hip : homeOf dex m i = p
    · subst hip
      rw [chainOf_snoc_self hi, h.chainOf_eq_nil hoff hp] at hq
      simpa using hq.symm
    · rw [chainOf_snoc_of_ne hi hip] at hq
      exact h.head p q hq

/-- The second stage's step, once the chain's last entry `t` and the empty entry `x` are found:
class definition `i` goes to `x`, and `t` is linked to it. -/
theorem Inv.link (h : Inv dex m entries order pos)
    (hoff : ∀ i < dex.numClassDefs, dex.descriptorOffset i ≠ 0) (hm : m ≤ 16)
    (hn : dex.numClassDefs ≤ 2 ^ m) (hi : i ∉ order) (hin : i < dex.numClassDefs)
    {c : List (BitVec 32)} {t x : BitVec 32}
    (hc : chainOf dex m order pos (homeOf dex m i) = c ++ [t])
    (hx : (entries x).isEmpty = true) (hxlt : x.toNat < 2 ^ m) {entries' : BitVec 32 → Entry}
    (hentries' : entries' = Function.update entries x
      (make (dex.descriptorOffset i) (hashOf dex i) (BitVec.ofNat 32 i) m)) :
    Inv dex m (Function.update entries' t
        ((entries' t).setNextPosDelta ((x - t) &&& getMask m)))
      (order ++ [i]) (Function.update pos i x) := by
  have hfresh := h.pos_ne_of_isEmpty hoff hx
  have hpos : ∀ j ∈ order, Function.update pos i x j = pos j := fun j hj =>
    Function.update_of_ne (fun hji : j = i => hi (hji ▸ hj)) _ _
  -- the tail is a placed class definition's entry, the last of the chain
  have htmem : t ∈ chainOf dex m order pos (homeOf dex m i) := by simp [hc]
  obtain ⟨jt, hjt, hjthome, rfl⟩ := mem_chainOf.1 htmem
  have hxt : x ≠ pos jt := fun hxt => hfresh jt hjt hxt.symm
  have hlinked := h.linked (homeOf dex m i)
  rw [hc] at hlinked
  have hlast : (entries (pos jt)).isLast m = true := by
    have hnone : nextPos m entries (pos jt) = none := hlinked.next_eq
    rw [← isNone_nextPos, hnone]
    rfl
  have hδ := toNat_and_getMask_lt (x - pos jt) (show m ≤ 32 by omega)
  have hat_x : entries' x = make (dex.descriptorOffset i) (hashOf dex i) (BitVec.ofNat 32 i) m := by
    rw [hentries', Function.update_self]
  have hat : ∀ a, a ≠ x → entries' a = entries a := fun a hax => by
    rw [hentries', Function.update_of_ne hax]
  have hat_t := hat (pos jt) hxt.symm
  have hnext : ∀ a, a ≠ pos jt → a ≠ x →
      nextPos m (Function.update entries' (pos jt)
        ((entries' (pos jt)).setNextPosDelta ((x - pos jt) &&& getMask m))) a =
        nextPos m entries a := fun a hat hax => by
    rw [nextPos_update_of_ne _ hat, hentries', nextPos_update_of_ne _ hax]
  refine ⟨h.toPlaced.snoc hi hin hxlt hfresh, ?_, ?_, ?_, ?_⟩
  · intro j hj
    rcases List.mem_append.1 hj with hj | hj
    · rw [hpos j hj]
      by_cases hjt' : pos j = pos jt
      · have hholds := h.holds j hj
        rw [hjt'] at hholds
        rw [hjt', Function.update_self, hat_t]
        exact hholds.setNextPosDelta hδ
      · rw [Function.update_of_ne hjt', hat _ (hfresh j hj)]
        exact h.holds j hj
    · rw [List.mem_singleton.1 hj, Function.update_self, Function.update_of_ne hxt, hat_x]
      exact holds_make hm (by omega)
  · intro q hq
    by_cases hqt : q = pos jt
    · exact ⟨jt, List.mem_append_left _ hjt, by rw [hpos jt hjt, hqt]⟩
    by_cases hqx : q = x
    · exact ⟨i, by simp, by rw [Function.update_self, hqx]⟩
    rw [Function.update_of_ne hqt, hat q hqx] at hq
    obtain ⟨j, hj, hjq⟩ := h.occupied q hq
    exact ⟨j, List.mem_append_left _ hj, by rw [hpos j hj, hjq]⟩
  · intro p
    by_cases hip : homeOf dex m i = p
    · subst hip
      rw [chainOf_snoc_self hi, hc, List.append_assoc, List.singleton_append]
      refine hlinked.snoc (fun a ha => hnext a ?_ ?_) ?_ ?_
      · -- a linked chain repeats no entry
        exact fun hat => (List.nodup_append.1 hlinked.nodup).2.2 a ha (pos jt) (by simp) hat
      · exact h.ne_of_mem_chainOf hoff hx (by rw [hc]; simp [ha])
      · rw [← hat_t] at hlast
        exact nextPos_setNextPosDelta (by omega) (h.pos_lt jt hjt) hxlt hxt hlast
      · rw [nextPos_update_of_ne _ hxt]
        simp [nextPos, hat_x, isLast_make]
    · rw [chainOf_snoc_of_ne hi hip]
      refine (h.linked p).congr fun a ha => hnext a ?_ (h.ne_of_mem_chainOf hoff hx ha)
      -- the chains of two positions share no entry
      rintro rfl
      obtain ⟨j, hj, hjp, hjpos⟩ := mem_chainOf.1 ha
      exact hip (hjthome.symm.trans (h.inj j hj jt hjt hjpos ▸ hjp))
  · intro p q hq
    by_cases hip : homeOf dex m i = p
    · subst hip
      rw [chainOf_snoc_self hi, hc, List.head?_append_of_ne_nil _ (by simp)] at hq
      exact h.head _ q (by rw [hc]; exact hq)
    · rw [chainOf_snoc_of_ne hi hip] at hq
      exact h.head p q hq

/-- The walk of the second stage from an initial position that a placed class definition shares
ends at the last entry of that position's chain. -/
theorem Inv.findTail (h : Inv dex m entries order pos) (hlen : order.length ≤ 2 ^ m) {w : Nat}
    (hw : w ∈ order) (hwhome : homeOf dex m w = homeOf dex m i) :
    ∃ c t, chainOf dex m order pos (homeOf dex m i) = c ++ [t] ∧
      find (nextPos m entries) (fun q => (entries q).isLast m) (2 ^ m) (homeOf dex m i) =
        some (some t) := by
  obtain ⟨rest, hc, hrest⟩ := h.chainOf_eq_cons hw hwhome
  have hlinked := h.linked (homeOf dex m i)
  rw [hc] at hlinked
  have hstop : (fun q => (entries q).isLast m) = fun q => (nextPos m entries q).isNone :=
    funext fun q => (isNone_nextPos q).symm
  refine ⟨(homeOf dex m i :: rest).dropLast, (homeOf dex m i :: rest).getLast (by simp), ?_, ?_⟩
  · rw [hc, List.dropLast_concat_getLast]
  · rw [hstop, find_linked_last hlinked (by omega), List.getLast?_eq_some_getLast]

/-- The second stage's step: both of its loops return, and the invariant is kept. -/
theorem Inv.insertConflict (h : Inv dex m entries order pos)
    (hoff : ∀ i < dex.numClassDefs, dex.descriptorOffset i ≠ 0) (hm : m ≤ 16)
    (hn : dex.numClassDefs ≤ 2 ^ m) (hi : i ∉ order) (hin : i < dex.numClassDefs) {w : Nat}
    (hw : w ∈ order) (hwhome : homeOf dex m w = homeOf dex m i) :
    ∃ entries' x, insertConflict dex m entries i = some entries' ∧
      Inv dex m entries' (order ++ [i]) (Function.update pos i x) := by
  have hlen := h.length_lt hi hin
  obtain ⟨c, t, hc, hfind⟩ := h.findTail (by omega) hw hwhome
  obtain ⟨jt, hjt, -, hjtpos⟩ :=
    mem_chainOf.1 (show t ∈ chainOf dex m order pos (homeOf dex m i) by rw [hc]; simp)
  have htlt : t.toNat < 2 ^ m := hjtpos ▸ h.pos_lt jt hjt
  -- an empty entry exists, so the probe after the tail finds one
  obtain ⟨f, hf, hfree⟩ := h.exists_empty hm (by omega)
  have hsome := findEmptyLoop_isSome hm hf hfree htlt
    (LinearProbing.fwd_lt (Nat.mod_lt _ (Nat.two_pow_pos m)) hf)
  obtain ⟨x, hx⟩ := Option.isSome_iff_exists.1 hsome
  obtain ⟨hxempty, hxlt⟩ := findEmptyLoop_spec (by omega) hx
  refine ⟨_, x, ?_, h.link hoff hm hn hi hin hc hxempty hxlt rfl⟩
  unfold TypeLookupTable.insertConflict
  dsimp only
  rw [show computeModifiedUtf8Hash (dex.descriptor i) &&& getMask m = homeOf dex m i from rfl,
    hfind]
  simp only [Option.bind_eq_bind, Option.bind_some, hx]
  rfl

end Steps

/-! ## `Create` returns a table that keeps the invariant -/

section Create

variable {dex : DexFile} {m : Nat}

theorem Inv.empty (pos : Nat → BitVec 32) : Inv dex m (fun _ => Entry.empty) [] pos where
  nodup := List.nodup_nil
  lt := by simp
  pos_lt := by simp
  inj := by simp
  holds := by simp
  occupied q hq := by cases hq
  linked p := by simp [chainOf]
  head p q := by simp [chainOf]

theorem placeInitial_eq (entries : BitVec 32 → Entry) (conflictClassDefs : List Nat) (k : Nat) :
    placeInitial dex m (entries, conflictClassDefs) k =
      if (entries (homeOf dex m k)).isEmpty then
        (Function.update entries (homeOf dex m k)
          (make (dex.descriptorOffset k) (hashOf dex k) (BitVec.ofNat 32 k) m), conflictClassDefs)
      else (entries, conflictClassDefs ++ [k]) := rfl

/-- One class definition through the first stage. -/
theorem FirstStage.placeInitial {entries : BitVec 32 → Entry} {C order : List Nat}
    {pos : Nat → BitVec 32} {k : Nat} (h : FirstStage dex m entries C order pos k)
    (hoff : ∀ i < dex.numClassDefs, dex.descriptorOffset i ≠ 0) (hm : m ≤ 16)
    (hn : dex.numClassDefs ≤ 2 ^ m) (hk : k < dex.numClassDefs) :
    ∃ order' pos', FirstStage dex m (placeInitial dex m (entries, C) k).1
      (placeInitial dex m (entries, C) k).2 order' pos' (k + 1) := by
  have hnew : k ∉ order := fun hk' =>
    by simpa using h.perm.subset (List.mem_append_left C hk')
  rw [placeInitial_eq]
  split
  · rename_i hp
    refine ⟨order ++ [k], Function.update pos k (homeOf dex m k),
      h.inv.placeAtHome hoff hm hn hnew hk hp, ?_, ?_, ?_⟩
    · intro i hi
      rcases List.mem_append.1 hi with hi | hi
      · rw [Function.update_of_ne (fun hik : i = k => hnew (hik ▸ hi))]
        exact h.at_home i hi
      · rw [List.mem_singleton.1 hi, Function.update_self]
    · rw [List.range_succ, List.append_assoc]
      exact ((List.perm_append_left_iff order).2 List.perm_append_comm).trans
        (by rw [← List.append_assoc]; exact h.perm.append_right [k])
    · intro j hj
      obtain ⟨w, hw, hwh⟩ := h.deferred j hj
      exact ⟨w, List.mem_append_left _ hw, hwh⟩
  · rename_i hp
    refine ⟨order, pos, h.inv, h.at_home, ?_, ?_⟩
    · rw [List.range_succ, ← List.append_assoc]
      exact h.perm.append_right [k]
    · intro j hj
      rcases List.mem_append.1 hj with hj | hj
      · exact h.deferred j hj
      · -- the initial position is taken, by a class definition placed there
        obtain ⟨w, hw, hwpos⟩ := h.inv.occupied _ (by simpa using hp)
        rw [List.mem_singleton.1 hj]
        exact ⟨w, hw, (h.at_home w hw).symm.trans hwpos⟩

/-- The first stage over class definitions `0 .. k - 1`. -/
theorem firstStage_foldl (hoff : ∀ i < dex.numClassDefs, dex.descriptorOffset i ≠ 0)
    (hm : m ≤ 16) (hn : dex.numClassDefs ≤ 2 ^ m) :
    ∀ k ≤ dex.numClassDefs, ∃ order pos,
      FirstStage dex m ((List.range k).foldl (placeInitial dex m) (fun _ => Entry.empty, [])).1
        ((List.range k).foldl (placeInitial dex m) (fun _ => Entry.empty, [])).2 order pos k
  | 0, _ => ⟨[], fun _ => 0, Inv.empty _, by simp, by simp, by simp⟩
  | k + 1, hk => by
    obtain ⟨order, pos, h⟩ := firstStage_foldl hoff hm hn k (by omega)
    rw [List.range_succ, List.foldl_append, List.foldl_cons, List.foldl_nil]
    exact h.placeInitial hoff hm hn (by omega)

/-- The second stage over the class definitions left to it. -/
theorem secondStage_foldlM (hoff : ∀ i < dex.numClassDefs, dex.descriptorOffset i ≠ 0)
    (hm : m ≤ 16) (hn : dex.numClassDefs ≤ 2 ^ m) :
    ∀ (C : List Nat) {entries : BitVec 32 → Entry} {order : List Nat} {pos : Nat → BitVec 32},
      Inv dex m entries order pos → (order ++ C).Nodup → (∀ j ∈ C, j < dex.numClassDefs) →
      (∀ j ∈ C, ∃ w ∈ order, homeOf dex m w = homeOf dex m j) →
      ∃ entries' pos', C.foldlM (insertConflict dex m) entries = some entries' ∧
        Inv dex m entries' (order ++ C) pos'
  | [], entries, order, pos, h, _, _, _ => ⟨entries, pos, rfl, by simpa using h⟩
  | j :: C, entries, order, pos, h, hnodup, hlt, hdeferred => by
    have hj : j ∉ order := fun hj =>
      (List.nodup_append.1 hnodup).2.2 j hj j (by simp) rfl
    obtain ⟨w, hw, hwh⟩ := hdeferred j (by simp)
    obtain ⟨entries₁, x, hstep, h₁⟩ := h.insertConflict hoff hm hn hj (hlt j (by simp)) hw hwh
    obtain ⟨entries', pos', hrest, h'⟩ := secondStage_foldlM hoff hm hn C h₁
      (by simpa using hnodup) (fun i hi => hlt i (by simp [hi]))
      (fun i hi => by
        obtain ⟨w', hw', hw'h⟩ := hdeferred i (by simp [hi])
        exact ⟨w', List.mem_append_left _ hw', hw'h⟩)
    refine ⟨entries', pos', ?_, by simpa using h'⟩
    rw [List.foldlM_cons, hstep]
    exact hrest

/-- `CalculateMaskBits` of a supported size: at most `16` bits, and room for every class
definition. -/
theorem calculateMaskBits_spec {n : Nat} (hpos : 0 < n) (hle : n ≤ 65535) :
    calculateMaskBits n = minimumBitsToStore (n - 1) ∧ calculateMaskBits n ≤ 16 ∧
      n ≤ 2 ^ calculateMaskBits n := by
  have hsupp : supportedSize n = true := by simp [supportedSize]; omega
  have hbits := lt_two_pow_minimumBitsToStore (n - 1)
  rw [calculateMaskBits, if_pos hsupp]
  exact ⟨rfl, minimumBitsToStore_le_iff.2 (by omega), by omega⟩

/-- `Create` on a supported number of class definitions returns, with every class definition
placed and the invariant kept. -/
theorem create_spec (hoff : ∀ i < dex.numClassDefs, dex.descriptorOffset i ≠ 0)
    (hpos : 0 < dex.numClassDefs) (hle : dex.numClassDefs ≤ 65535) :
    ∃ entries order pos,
      create dex = some ⟨dex.stringData, calculateMaskBits dex.numClassDefs, some entries⟩ ∧
        Inv dex (calculateMaskBits dex.numClassDefs) entries order pos ∧
        ∀ i < dex.numClassDefs, i ∈ order := by
  obtain ⟨-, hm, hn⟩ := calculateMaskBits_spec hpos hle
  obtain ⟨order₁, pos₁, h₁⟩ := firstStage_foldl hoff hm hn _ le_rfl
  generalize hr : (List.range dex.numClassDefs).foldl
    (placeInitial dex (calculateMaskBits dex.numClassDefs)) (fun _ => Entry.empty, []) = r at h₁
  obtain ⟨entries₁, C⟩ := r
  have hnodup : (order₁ ++ C).Nodup := h₁.perm.nodup_iff.2 List.nodup_range
  obtain ⟨entries, pos, hfold, h⟩ := secondStage_foldlM hoff hm hn C h₁.inv hnodup
    (fun j hj => by simpa using h₁.perm.subset (List.mem_append_right _ hj)) h₁.deferred
  refine ⟨entries, order₁ ++ C, pos, ?_, h, fun i hi => h₁.perm.mem_iff.2 (by simpa using hi)⟩
  have hsupp : supportedSize dex.numClassDefs = true := by simp [supportedSize]; omega
  unfold create
  simp only [hsupp, Bool.not_true, hr, hfold]
  rfl

end Create

/-! ## `Lookup` -/

section Lookup

variable {dex : DexFile} {m : Nat} {entries : BitVec 32 → Entry} {order : List Nat}
  {pos : Nat → BitVec 32}

theorem compareModifiedUtf8Loop_self : ∀ (fuel : Nat) (a : List Nat),
    compareModifiedUtf8Loop fuel a a = 0
  | 0, _ => rfl
  | fuel + 1, a => by
    unfold compareModifiedUtf8Loop
    by_cases ha : a.headD 0 = 0
    · rw [if_pos ha, if_pos ha]
    · rw [if_neg ha, if_neg ha]
      simp [compareModifiedUtf8Loop_self fuel]

theorem modifiedUtf8StringEquals_self (a : List Nat) : modifiedUtf8StringEquals a a = true := by
  simp [modifiedUtf8StringEquals, compareModifiedUtf8ToModifiedUtf8AsUtf16CodePointValues,
    compareModifiedUtf8Loop_self]

theorem Placed.length_le (h : Placed dex m order pos) : order.length ≤ dex.numClassDefs := by
  have hsub : order.toFinset ⊆ Finset.range dex.numClassDefs := fun j hj =>
    Finset.mem_range.2 (h.lt j (List.mem_toFinset.1 hj))
  have hcard := Finset.card_le_card hsub
  rwa [List.toFinset_card_of_nodup h.nodup, Finset.card_range] at hcard

/-- From a non-empty entry a chain goes on, through placed class definitions' entries only, and
is shorter than the table. -/
theorem Inv.suffix (h : Inv dex m entries order pos) (hn : dex.numClassDefs ≤ 2 ^ m)
    {q : BitVec 32} (hq : (entries q).isEmpty = false) :
    ∃ rest, Linked (nextPos m entries) (q :: rest) ∧ rest.length < 2 ^ m ∧
      ∀ a ∈ q :: rest, ∃ j ∈ order, pos j = a := by
  obtain ⟨j, hj, rfl⟩ := h.occupied q hq
  have hmem : pos j ∈ chainOf dex m order pos (homeOf dex m j) := mem_chainOf.2 ⟨j, hj, rfl, rfl⟩
  obtain ⟨rest, hlinked, hlen, hsub⟩ := (h.linked _).suffix hmem
  have hchain : (chainOf dex m order pos (homeOf dex m j)).length ≤ order.length :=
    length_chainOf_le
  have hlen' := h.length_le
  refine ⟨rest, hlinked, by omega, fun a ha => ?_⟩
  obtain ⟨k, hk, -, hka⟩ := mem_chainOf.1 (hsub a ha)
  exact ⟨k, hk, hka⟩

/-- `Lookup` returns for every string and hash, and answers only the index of a class
definition whose descriptor compares equal to the string. -/
theorem Inv.lookup_sound (h : Inv dex m entries order pos) (hm : m ≤ 15)
    (hn : dex.numClassDefs ≤ 2 ^ m) (str : List Nat) (hash : BitVec 32) :
    ∃ r, lookup ⟨dex.stringData, m, some entries⟩ str hash = some r ∧
      (r = kDexNoIndex ∨ ∃ j ∈ order, r = BitVec.ofNat 32 j ∧
        modifiedUtf8StringEquals str (dex.descriptor j) = true) := by
  -- an answer is read from a placed class definition's entry whose string compared equal
  have hanswer : ∀ q, (∃ j ∈ order, pos j = q) →
      modifiedUtf8StringEquals str (dex.stringData (entries q).strOffset) = true →
      ∃ j ∈ order, (entries q).getClassDefIdx m = BitVec.ofNat 32 j ∧
        modifiedUtf8StringEquals str (dex.descriptor j) = true := by
    rintro q ⟨j, hj, rfl⟩ heq
    rw [(h.holds j hj).strOffset_eq] at heq
    exact ⟨j, hj, (h.holds j hj).classDefIdx_eq, heq⟩
  unfold lookup
  dsimp only
  simp only [Option.bind_eq_bind, Option.bind_some]
  by_cases hp : (entries (hash &&& getMask m)).isEmpty = true
  · exact ⟨_, by rw [if_pos hp]; rfl, Or.inl rfl⟩
  rw [if_neg hp, if_neg (by omega)]
  obtain ⟨rest, hlinked, hlen, hmem⟩ := h.suffix hn (by simpa using hp)
  rw [find_linked _ hlinked hlen, Option.bind_some]
  cases hf : ((hash &&& getMask m) :: rest).find?
      (fun q => (hash <<< m) >>> (2 * m) == (entries q).getHashBits m) with
  | none => exact ⟨_, rfl, Or.inl rfl⟩
  | some q₁ =>
    have hq₁ := List.mem_of_find?_eq_some hf
    dsimp only
    by_cases heq : modifiedUtf8StringEquals str (dex.stringData (entries q₁).strOffset) = true
    · obtain ⟨j, hj, hidx, hj'⟩ := hanswer q₁ (hmem q₁ hq₁) heq
      exact ⟨_, by rw [if_pos heq]; rfl, Or.inr ⟨j, hj, hidx, hj'⟩⟩
    rw [if_neg heq]
    by_cases hlast : (entries q₁).isLast m = true
    · exact ⟨_, by rw [if_pos hlast]; rfl, Or.inl rfl⟩
    rw [if_neg hlast]
    by_cases hbucket : (computeModifiedUtf8Hash (dex.stringData (entries q₁).strOffset) ^^^ hash) &&&
        getMask m ≠ 0
    · exact ⟨_, by rw [if_pos hbucket]; rfl, Or.inl rfl⟩
    rw [if_neg hbucket]
    have hnext := nextPos_of_not_isLast (Bool.eq_false_iff.2 hlast)
    obtain ⟨rest', hlinked', hlen', hsub'⟩ := hlinked.of_next hq₁ hnext
    rw [find_linked _ hlinked' (by simp at hlen'; omega), Option.bind_some]
    cases hf' : (((q₁ + (entries q₁).getNextPosDelta m) &&& getMask m) :: rest').find?
        (fun q => (hash <<< m) >>> (2 * m) == (entries q).getHashBits m &&
          modifiedUtf8StringEquals str (dex.stringData (entries q).strOffset)) with
    | none => exact ⟨_, rfl, Or.inl rfl⟩
    | some q₃ =>
      have hq₃ := List.mem_of_find?_eq_some hf'
      have heq₃ := List.find?_some hf'
      simp only [Bool.and_eq_true] at heq₃
      obtain ⟨j, hj, hidx, hj'⟩ := hanswer q₃ (hmem q₃ (hsub' q₃ hq₃)) heq₃.2
      exact ⟨_, rfl, Or.inr ⟨j, hj, hidx, hj'⟩⟩

/-- Asked for a placed class definition's descriptor with its hash, `Lookup` walks that
descriptor's chain from its start and answers its index, when no other descriptor compares equal
to it. -/
theorem Inv.lookup_descriptor (h : Inv dex m entries order pos)
    (hoff : ∀ i < dex.numClassDefs, dex.descriptorOffset i ≠ 0) (hm : m ≤ 15)
    (hn : dex.numClassDefs ≤ 2 ^ m) {i : Nat} (hi : i ∈ order)
    (hdistinct : ∀ j ∈ order, j ≠ i →
      modifiedUtf8StringEquals (dex.descriptor i) (dex.descriptor j) = false) :
    lookup ⟨dex.stringData, m, some entries⟩ (dex.descriptor i) (hashOf dex i) =
      some (BitVec.ofNat 32 i) := by
  obtain ⟨rest, hc, hlen⟩ := h.chainOf_eq_cons hi rfl
  have hmem_i : pos i ∈ homeOf dex m i :: rest := hc ▸ mem_chainOf.2 ⟨i, hi, rfl, rfl⟩
  have hlinked := h.linked (homeOf dex m i)
  rw [hc] at hlinked
  have hlen : rest.length < 2 ^ m := lt_of_lt_of_le hlen (h.length_le.trans hn)
  have hin : ∀ a ∈ homeOf dex m i :: rest,
      ∃ j ∈ order, homeOf dex m j = homeOf dex m i ∧ pos j = a := fun a ha =>
    mem_chainOf.1 (hc ▸ ha)
  have hp := h.isEmpty_homeOf hoff hi
  -- only `i`'s own entry compares equal, and it answers `i`
  have honly : ∀ a ∈ homeOf dex m i :: rest,
      modifiedUtf8StringEquals (dex.descriptor i) (dex.stringData (entries a).strOffset) = true →
        a = pos i := by
    intro a ha heq
    obtain ⟨j, hj, -, rfl⟩ := hin a ha
    rw [(h.holds j hj).strOffset_eq] at heq
    by_contra hji
    have hne := hdistinct j hj (fun hji' => hji (hji' ▸ rfl))
    change modifiedUtf8StringEquals (dex.descriptor i) (dex.descriptor j) = true at heq
    rw [hne] at heq
    cases heq
  have hidx : (entries (pos i)).getClassDefIdx m = BitVec.ofNat 32 i := (h.holds i hi).classDefIdx_eq
  have hself : modifiedUtf8StringEquals (dex.descriptor i)
      (dex.stringData (entries (pos i)).strOffset) = true := by
    rw [(h.holds i hi).strOffset_eq]
    exact modifiedUtf8StringEquals_self _
  have hbits : ((hashOf dex i <<< m) >>> (2 * m) == (entries (pos i)).getHashBits m) = true := by
    rw [(h.holds i hi).hashBits_eq, beq_self_eq_true]
  unfold lookup
  dsimp only
  simp only [Option.bind_eq_bind, Option.bind_some]
  rw [show hashOf dex i &&& getMask m = homeOf dex m i from rfl, if_neg (by simp [hp]),
    if_neg (by omega), find_linked _ hlinked hlen, Option.bind_some]
  -- the partial hash match: `i`'s entry passes it, so some entry no later does
  cases hf : (homeOf dex m i :: rest).find?
      (fun q => (hashOf dex i <<< m) >>> (2 * m) == (entries q).getHashBits m) with
  | none => exact absurd hbits (by simpa using List.find?_eq_none.1 hf (pos i) hmem_i)
  | some q₁ =>
    dsimp only
    obtain ⟨-, pre, post, hsplit, hpre⟩ := List.find?_eq_some_iff_append.1 hf
    have hq₁ : q₁ ∈ homeOf dex m i :: rest := by rw [hsplit]; simp
    by_cases heq : modifiedUtf8StringEquals (dex.descriptor i)
        (dex.stringData (entries q₁).strOffset) = true
    · rw [if_pos heq, honly q₁ hq₁ heq, hidx]
      rfl
    rw [if_neg heq]
    have hpost : pos i ∈ post := by
      rw [hsplit] at hmem_i
      rcases List.mem_append.1 hmem_i with hpre' | hpost'
      · exact absurd hbits (by simpa using hpre _ hpre')
      · rcases List.mem_cons.1 hpost' with h₁ | h₁
        · exact absurd (h₁ ▸ hself) heq
        · exact h₁
    rw [hsplit] at hlinked
    obtain ⟨q₂, post', rfl⟩ := List.exists_cons_of_ne_nil (List.ne_nil_of_mem hpost)
    have hnext : nextPos m entries q₁ = some q₂ := hlinked.next_eq
    have hlast : (entries q₁).isLast m = false := by
      rw [← isNone_nextPos, hnext]
      rfl
    rw [if_neg (by simp [hlast])]
    obtain ⟨j₁, hj₁, hj₁home, rfl⟩ := hin q₁ hq₁
    rw [(h.holds j₁ hj₁).strOffset_eq, if_neg (by
      rw [not_not, xor_and_getMask_eq_zero_iff]
      exact hj₁home)]
    rw [nextPos_of_not_isLast hlast] at hnext
    rw [Option.some_inj.1 hnext]
    have hlinked' : Linked (nextPos m entries) (q₂ :: post') := by
      rw [show pre ++ pos j₁ :: q₂ :: post' = (pre ++ [pos j₁]) ++ q₂ :: post' by simp] at hlinked
      exact hlinked.append_right
    have hlen' : post'.length < 2 ^ m := by
      have := congrArg List.length hsplit
      simp only [List.length_append, List.length_cons] at this
      omega
    rw [find_linked _ hlinked' hlen', Option.bind_some]
    -- the rest of the chain: `i`'s entry passes both tests, and only it does
    have hsub : ∀ a ∈ q₂ :: post', a ∈ homeOf dex m i :: rest := fun a ha => by
      rw [hsplit]
      simp [ha]
    cases hf' : (q₂ :: post').find? (fun q => (hashOf dex i <<< m) >>> (2 * m) ==
        (entries q).getHashBits m && modifiedUtf8StringEquals (dex.descriptor i)
          (dex.stringData (entries q).strOffset)) with
    | none =>
      have := List.find?_eq_none.1 hf' (pos i) hpost
      simp [hbits, hself] at this
    | some q₃ =>
      have heq₃ := List.find?_some hf'
      simp only [Bool.and_eq_true] at heq₃
      dsimp only
      rw [honly q₃ (hsub q₃ (List.mem_of_find?_eq_some hf')) heq₃.2, hidx]
      rfl

end Lookup

/-! ## The table of a dex file -/

section Table

/-- `Create` on 1 to 32768 class definitions, whose descriptors have non-zero string data offsets
and compare pairwise unequal, returns a valid table.  `Lookup` of each descriptor with its
`ComputeModifiedUtf8Hash` answers that class definition, and `Lookup` of any string with any hash
returns, answering `kDexNoIndex` or the index of a class definition whose descriptor compares
equal to the string. -/
theorem create_lookup_finds_class_defs (dex : DexFile)
    (hoff : ∀ i < dex.numClassDefs, dex.descriptorOffset i ≠ 0)
    (hpos : 0 < dex.numClassDefs) (hle : dex.numClassDefs ≤ 32768)
    (hdistinct : ∀ i < dex.numClassDefs, ∀ j < dex.numClassDefs, i ≠ j →
      modifiedUtf8StringEquals (dex.descriptor i) (dex.descriptor j) = false) :
    ∃ t, create dex = some t ∧ t.valid = true ∧
      (∀ i < dex.numClassDefs, t.lookup (dex.descriptor i)
        (computeModifiedUtf8Hash (dex.descriptor i)) = some (BitVec.ofNat 32 i)) ∧
      ∀ str hash, ∃ r, t.lookup str hash = some r ∧
        (r = kDexNoIndex ∨ ∃ i < dex.numClassDefs, r = BitVec.ofNat 32 i ∧
          modifiedUtf8StringEquals str (dex.descriptor i) = true) := by
  obtain ⟨hbits, -, hn⟩ := calculateMaskBits_spec hpos (by omega)
  have hm : calculateMaskBits dex.numClassDefs ≤ 15 := by
    rw [hbits]
    exact minimumBitsToStore_le_iff.2 (by omega)
  obtain ⟨entries, order, pos, hcreate, h, hall⟩ := create_spec hoff hpos (by omega)
  refine ⟨_, hcreate, rfl, fun i hi => ?_, fun str hash => ?_⟩
  · exact h.lookup_descriptor hoff hm hn (hall i hi) fun j hj hji =>
      hdistinct i hi j (h.lt j hj) (Ne.symm hji)
  · obtain ⟨r, hr, hsound⟩ := h.lookup_sound hm hn str hash
    refine ⟨r, hr, hsound.imp_right ?_⟩
    rintro ⟨j, hj, rfl, heq⟩
    exact ⟨j, h.lt j hj, rfl, heq⟩

/-- Five class definitions in a table of eight entries, three of whose descriptors, `LA;`, `LI;`
and `LQ;`, have the initial position 6: the second stage puts `LI;` at 0, the initial position of
no class definition, and `LQ;` at 1. -/
def collidingDescriptors : DexFile where
  classDefs := [0, 1, 2, 3, 4]
  typeIds := id
  stringIds := fun i => BitVec.ofNat 32 (i + 1)
  stringData := fun off =>
    [[76, 65, 59], [76, 73, 59], [76, 81, 59], [76, 72, 59], [76, 66, 59]].getD (off.toNat - 1) []

theorem create_lookup_colliding_descriptors :
    (∀ i < collidingDescriptors.numClassDefs, collidingDescriptors.descriptorOffset i ≠ 0) ∧
      (∀ i < collidingDescriptors.numClassDefs, ∀ j < collidingDescriptors.numClassDefs, i ≠ j →
        modifiedUtf8StringEquals (collidingDescriptors.descriptor i)
          (collidingDescriptors.descriptor j) = false) ∧
      ∃ t, create collidingDescriptors = some t ∧ t.valid = true ∧
        (∀ i < collidingDescriptors.numClassDefs, t.lookup (collidingDescriptors.descriptor i)
          (computeModifiedUtf8Hash (collidingDescriptors.descriptor i)) =
            some (BitVec.ofNat 32 i)) ∧
        ∀ str hash, ∃ r, t.lookup str hash = some r ∧
          (r = kDexNoIndex ∨ ∃ i < collidingDescriptors.numClassDefs, r = BitVec.ofNat 32 i ∧
            modifiedUtf8StringEquals str (collidingDescriptors.descriptor i) = true) :=
  ⟨by decide, by decide,
    create_lookup_finds_class_defs collidingDescriptors (by decide) (by decide) (by decide)
      (by decide)⟩

/-- With 32769 to 65535 class definitions `mask_bits` is `16`, and `Lookup` of every class
definition's descriptor with its hash shifts a `uint32_t` by `2 * 16`, which is undefined. -/
theorem lookup_shifts_by_width_at_sixteen_mask_bits (dex : DexFile)
    (hoff : ∀ i < dex.numClassDefs, dex.descriptorOffset i ≠ 0)
    (hlo : 32768 < dex.numClassDefs) (hle : dex.numClassDefs ≤ 65535) :
    ∃ t, create dex = some t ∧ t.maskBits = 16 ∧
      ∀ i < dex.numClassDefs,
        t.lookup (dex.descriptor i) (computeModifiedUtf8Hash (dex.descriptor i)) = none := by
  obtain ⟨hbits, hm, -⟩ := calculateMaskBits_spec (by omega) hle
  have h16 : calculateMaskBits dex.numClassDefs = 16 := by
    have hnot : ¬calculateMaskBits dex.numClassDefs ≤ 15 := by
      rw [hbits, minimumBitsToStore_le_iff]
      omega
    omega
  obtain ⟨entries, order, pos, hcreate, h, hall⟩ := create_spec hoff (by omega) hle
  refine ⟨_, hcreate, h16, fun i hi => ?_⟩
  have hp := h.isEmpty_homeOf hoff (hall i hi)
  unfold lookup
  dsimp only
  simp only [Option.bind_eq_bind, Option.bind_some]
  rw [show computeModifiedUtf8Hash (dex.descriptor i) &&& getMask (calculateMaskBits dex.numClassDefs)
      = homeOf dex (calculateMaskBits dex.numClassDefs) i from rfl,
    if_neg (by simp [hp]), if_pos (by omega), Option.bind_none]

/-- 32769 class definitions, all of one type. -/
def manyClassDefs : DexFile where
  classDefs := List.replicate 32769 0
  typeIds := fun _ => 0
  stringIds := fun _ => 1
  stringData := fun _ => [76, 65, 59]

theorem lookup_shifts_by_width_many_class_defs :
    (∀ i < manyClassDefs.numClassDefs, manyClassDefs.descriptorOffset i ≠ 0) ∧
      32768 < manyClassDefs.numClassDefs ∧
      ∃ t, create manyClassDefs = some t ∧ t.maskBits = 16 ∧
        ∀ i < manyClassDefs.numClassDefs, t.lookup (manyClassDefs.descriptor i)
          (computeModifiedUtf8Hash (manyClassDefs.descriptor i)) = none := by
  have hoff : ∀ i < manyClassDefs.numClassDefs, manyClassDefs.descriptorOffset i ≠ 0 :=
    fun _ _ => show (1 : BitVec 32) ≠ 0 by decide
  have hn : manyClassDefs.numClassDefs = 32769 := List.length_replicate
  exact ⟨hoff, by omega,
    lookup_shifts_by_width_at_sixteen_mask_bits manyClassDefs hoff (by omega) (by omega)⟩

end Table

end TypeLookupTable

end Art
