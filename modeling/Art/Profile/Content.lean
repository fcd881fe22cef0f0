import Mathlib
import Art.Profile.ProfileCompilationInfo
import Art.Lib.CappedSet

/-!
# What a profile records

A class of a profile is a type index of one of its dex files, and above `num_type_ids` an index
into the profile's extra descriptors; two profiles number them differently.  `ClassRef` names a
class the same way in every profile: by its type index where it has a `TypeId`, by its descriptor
where it does not.  Read through it an inline cache is a `CappedSet` of classes capped at
`kIndividualInlineCacheSize` (`DexPcData.content`): a megamorphic cache is `many`, one that
misses types is `unknown`.  A profile then records, for each profile key, a set of classes, the
hotness flags of each method, and for each hot method the cache of each dex pc.

`WellFormed` is what the profile's operations keep: sets and maps sorted, type indices that name a
class, bitmaps of the size the method count gives, and no repeated key or descriptor.
-/

namespace Art

namespace ProfileCompilationInfo

/-- A class, named independently of a profile's numbering. -/
inductive ClassRef where
  | typeId (typeIndex : Nat)
  | descriptor (descriptor : String)
  deriving DecidableEq, Repr

/-- The class that a type index names in a dex file of `numTypeIds` types. -/
def classRef (extraDescriptors : List String) (numTypeIds typeIndex : Nat) : ClassRef :=
  if typeIndex < numTypeIds then .typeId typeIndex
  else .descriptor (extraDescriptors.getD (typeIndex - numTypeIds) "")

/-- A `uint16_t` type index that names a `TypeId` or an extra descriptor. -/
def ValidType (extraDescriptors : List String) (numTypeIds typeIndex : Nat) : Prop :=
  typeIndex < numTypeIds + extraDescriptors.length ∧ typeIndex < 2 ^ 16

abbrev CacheState := CappedSet ClassRef kIndividualInlineCacheSize

namespace DexPcData

/-- What an inline cache records. -/
def content (extraDescriptors : List String) (numTypeIds : Nat) (d : DexPcData) : CacheState :=
  if d.isMissingTypes then .unknown
  else if d.isMegamorphic then .many
  else CappedSet.ofFinset (d.classes.map (classRef extraDescriptors numTypeIds)).toFinset

structure WellFormed (extraDescriptors : List String) (numTypeIds : Nat) (d : DexPcData) :
    Prop where
  sorted : d.classes.Pairwise (· < ·)
  valid : ∀ t ∈ d.classes, ValidType extraDescriptors numTypeIds t

end DexPcData

/-- The caches of a method, by dex pc. -/
def inlineCacheContent (extraDescriptors : List String) (numTypeIds : Nat)
    (inlineCache : InlineCacheMap) : Nat → WithBot CacheState :=
  SortedMap.lookupIn (DexPcData.content extraDescriptors numTypeIds) inlineCache

/-- Sorted by dex pc, with well-formed caches. -/
def InlineCacheWF (extraDescriptors : List String) (numTypeIds : Nat)
    (inlineCache : InlineCacheMap) : Prop :=
  SortedMap.Ordered inlineCache ∧
    ∀ pc v, inlineCache.lookup pc = some v → v.WellFormed extraDescriptors numTypeIds

namespace DexFileData

/-- The classes of a dex file. -/
def classes (extraDescriptors : List String) (d : DexFileData) : Finset ClassRef :=
  (d.classSet.map (classRef extraDescriptors d.numTypeIds)).toFinset

/-- The hot methods of a dex file, with their caches by dex pc. -/
def methods (extraDescriptors : List String) (d : DexFileData) :
    Nat → WithBot (Nat → WithBot CacheState) :=
  SortedMap.lookupIn (inlineCacheContent extraDescriptors d.numTypeIds) d.methodMap

structure WellFormed (extraDescriptors : List String) (forBootImage : Bool) (d : DexFileData) :
    Prop where
  classes_sorted : d.classSet.Pairwise (· < ·)
  classes_valid : ∀ t ∈ d.classSet, ValidType extraDescriptors d.numTypeIds t
  methods_ordered : SortedMap.Ordered d.methodMap
  caches_wf : ∀ m ic, d.methodMap.lookup m = some ic → InlineCacheWF extraDescriptors d.numTypeIds ic
  bitmap_length : d.bitmapStorage.length = computeBitmapStorage d.isForBootImage d.numMethodIds
  kind : d.isForBootImage = forBootImage

end DexFileData

structure WellFormed (p : ProfileCompilationInfo) : Prop where
  keys_nodup : (p.info.map (·.profileKey)).Nodup
  profileIndex_eq : ∀ i (h : i < p.info.length), p.info[i].profileIndex = i
  dexFiles_wf : ∀ d ∈ p.info, d.WellFormed p.extraDescriptors p.forBootImage
  extraDescriptors_nodup : p.extraDescriptors.Nodup

/-- Every dex file has at most `kDexNoIndex16` type ids, as the dex file verifier requires of
every dex file (`CheckSizeLimit(type_ids_size_, kDexNoIndex16)`); `LoadInternal` reads
`num_type_ids` from the file with no bound. -/
def TypeIdsFit (p : ProfileCompilationInfo) : Prop :=
  ∀ d ∈ p.info, d.numTypeIds ≤ kDexNoIndex16

/-! ## What a profile records for a profile key -/

/-- The checksum and the id counts of a dex file, which two profiles of it must agree on. -/
def DexFileData.dexKey (d : DexFileData) : Nat × Nat × Nat :=
  (d.checksum, d.numTypeIds, d.numMethodIds)

def dexKeyOf (p : ProfileCompilationInfo) (key : String) : Option (Nat × Nat × Nat) :=
  (p.findDexData key).map DexFileData.dexKey

def classesOf (p : ProfileCompilationInfo) (key : String) : Finset ClassRef :=
  ((p.findDexData key).map (DexFileData.classes p.extraDescriptors)).getD ∅

def hotnessFlagsOf (p : ProfileCompilationInfo) (key : String) (methodIndex : Nat) : Nat :=
  ((p.findDexData key).map fun d => (d.getHotnessInfo methodIndex).flags).getD 0

/-- The cache of a dex pc of a hot method, `⊥` where there is none. -/
def inlineCacheOf (p : ProfileCompilationInfo) (key : String) (methodIndex dexPc : Nat) :
    WithBot CacheState :=
  ((p.findDexData key).map fun d =>
    (d.methods p.extraDescriptors methodIndex).unbotD ⊥ dexPc).getD ⊥

/-- `r` records for every key the join of what `a` and `b` record: `a`'s checksum and id counts,
which `b`'s agree with, the union of the classes, the or of the hotness flags and the join of
the inline caches. -/
structure RecordsJoin (a b r : ProfileCompilationInfo) : Prop where
  dexKey_agree : ∀ key x y, a.dexKeyOf key = some x → b.dexKeyOf key = some y → x = y
  dexKey : ∀ key, r.dexKeyOf key = (a.dexKeyOf key).or (b.dexKeyOf key)
  classes : ∀ key, r.classesOf key = a.classesOf key ∪ b.classesOf key
  flags : ∀ key m, r.hotnessFlagsOf key m = a.hotnessFlagsOf key m ||| b.hotnessFlagsOf key m
  caches : ∀ key m pc,
    r.inlineCacheOf key m pc = a.inlineCacheOf key m pc ⊔ b.inlineCacheOf key m pc

/-- Two profiles record the same for every key, however they number their dex files and extra
descriptors. -/
structure SameContent (p q : ProfileCompilationInfo) : Prop where
  dexKey : ∀ key, p.dexKeyOf key = q.dexKeyOf key
  classes : ∀ key, p.classesOf key = q.classesOf key
  flags : ∀ key m, p.hotnessFlagsOf key m = q.hotnessFlagsOf key m
  caches : ∀ key m pc, p.inlineCacheOf key m pc = q.inlineCacheOf key m pc

/-- Joining `b` and then `c` into `a` records what joining `c` and then `b` does. -/
theorem RecordsJoin.right_comm {a b c ab abc ac acb : ProfileCompilationInfo}
    (hab : RecordsJoin a b ab) (habc : RecordsJoin ab c abc) (hac : RecordsJoin a c ac)
    (hacb : RecordsJoin ac b acb) : SameContent abc acb where
  dexKey key := by
    rw [habc.dexKey, hacb.dexKey, hab.dexKey, hac.dexKey]
    -- `b`'s and `c`'s agree where `a` has none, since the second merges succeed
    exact Option.or_right_comm_of_agree fun u v hu hv => habc.dexKey_agree key u v
      (by rw [hab.dexKey]; exact hu) hv
  classes key := by
    rw [habc.classes, hacb.classes, hab.classes, hac.classes, Finset.union_right_comm]
  flags key m := by
    rw [habc.flags, hacb.flags, hab.flags, hac.flags]
    ac_rfl
  caches key m pc := by
    rw [habc.caches, hacb.caches, hab.caches, hac.caches, sup_right_comm]

/-! ## Classes and caches -/

section

variable {ex : List String} {n : Nat}

/-- Distinct valid type indices name distinct classes, since the extra descriptors are distinct. -/
theorem classRef_inj (hex : ex.Nodup) {t t' : Nat} (ht : ValidType ex n t)
    (ht' : ValidType ex n t') (h : classRef ex n t = classRef ex n t') : t = t' := by
  unfold classRef at h
  by_cases h₁ : t < n <;> by_cases h₂ : t' < n <;>
    simp only [h₁, h₂, if_true, if_false, reduceCtorEq, ClassRef.typeId.injEq,
      ClassRef.descriptor.injEq] at h
  · exact h
  · -- two extra descriptors: equal descriptors sit at equal indices
    rw [List.getD_eq_getElem _ _ (by unfold ValidType at ht; omega),
      List.getD_eq_getElem _ _ (by unfold ValidType at ht'; omega)] at h
    have := (hex.getElem_inj_iff).mp h
    omega

/-- A sorted list of valid type indices names as many classes as it has elements. -/
theorem card_toFinset_classRef (hex : ex.Nodup) {cs : List Nat} (hs : cs.Pairwise (· < ·))
    (hv : ∀ t ∈ cs, ValidType ex n t) : (cs.map (classRef ex n)).toFinset.card = cs.length := by
  rw [List.toFinset_card_of_nodup, List.length_map]
  exact List.Nodup.map_on (fun x hx y hy hxy => classRef_inj hex (hv x hx) (hv y hy) hxy)
    (hs.imp ne_of_lt)

theorem classRef_mem_iff (hex : ex.Nodup) {cs : List Nat} (hv : ∀ t ∈ cs, ValidType ex n t)
    {t : Nat} (ht : ValidType ex n t) :
    classRef ex n t ∈ (cs.map (classRef ex n)).toFinset ↔ t ∈ cs := by
  simp only [List.mem_toFinset, List.mem_map]
  constructor
  · rintro ⟨t', ht', heq⟩
    rwa [← classRef_inj hex (hv t' ht') ht heq]
  · exact fun h => ⟨t, h, rfl⟩

theorem classRef_eq_of_lt {t : Nat} (ht : t < n) : classRef ex n t = .typeId t := if_pos ht

namespace DexPcData

@[simp] theorem content_empty : empty.content ex n = ⊥ := rfl

theorem wellFormed_empty : empty.WellFormed ex n := ⟨List.Pairwise.nil, fun _ h => by cases h⟩

theorem content_of_classes {d : DexPcData} (hm : d.isMegamorphic = false)
    (ht : d.isMissingTypes = false) :
    d.content ex n = CappedSet.ofFinset (d.classes.map (classRef ex n)).toFinset := by
  simp [content, hm, ht]

/-- `AddClass` joins the class to the cache. -/
theorem addClass_spec (hex : ex.Nodup) {d : DexPcData} (hd : d.WellFormed ex n) {t : Nat}
    (ht : ValidType ex n t) :
    (d.addClass t).WellFormed ex n ∧
      (d.addClass t).content ex n = d.content ex n ⊔ CappedSet.ofFinset {classRef ex n t} := by
  unfold addClass
  by_cases hstop : (d.isMegamorphic || d.isMissingTypes) = true
  · -- a megamorphic cache or one missing types absorbs the class
    rw [if_pos hstop]
    refine ⟨hd, ?_⟩
    unfold content
    split_ifs with hmiss hmega
    · rfl
    · exact (CappedSet.many_sup_ofFinset _).symm
    · simp [hmiss, hmega] at hstop
  rw [if_neg hstop]
  simp only [Bool.or_eq_true, not_or, Bool.not_eq_true] at hstop
  have hcontent : d.content ex n = _ := content_of_classes hstop.1 hstop.2
  have hcard := card_toFinset_classRef hex hd.sorted hd.valid
  rw [hcontent, CappedSet.ofFinset_sup_ofFinset]
  by_cases hmem : SortedSet.lowerBound d.classes t = some t
  · -- the class is there already
    rw [if_pos hmem]
    have ht' := (classRef_mem_iff hex hd.valid ht).mpr
      ((SortedSet.lowerBound_eq_some_iff hd.sorted t).mp hmem)
    refine ⟨hd, ?_⟩
    rw [hcontent, Finset.union_eq_left.mpr (Finset.singleton_subset_iff.mpr ht')]
  rw [if_neg hmem]
  have hnot : classRef ex n t ∉ (d.classes.map (classRef ex n)).toFinset :=
    fun h => hmem ((SortedSet.lowerBound_eq_some_iff hd.sorted t).mpr
      ((classRef_mem_iff hex hd.valid ht).mp h))
  have hunion : ((d.classes.map (classRef ex n)).toFinset ∪ {classRef ex n t}).card =
      d.classes.length + 1 := by
    rw [Finset.union_comm, ← Finset.insert_eq, Finset.card_insert_of_notMem hnot, hcard]
  split_ifs with hfull
  · -- the class would be the `kIndividualInlineCacheSize`-th: the cache becomes megamorphic
    refine ⟨⟨List.Pairwise.nil, fun _ h => by cases h⟩, ?_⟩
    rw [CappedSet.ofFinset_of_le (by rw [hunion]; exact hfull)]
    simp [content, hstop.2]
  · refine ⟨⟨SortedSet.pairwise_insert hd.sorted t, fun t' h' => ?_⟩, ?_⟩
    · rcases SortedSet.mem_insert.mp h' with rfl | h'
      · exact ht
      · exact hd.valid t' h'
    · simp only [content, hstop.1, hstop.2, Bool.false_eq_true, if_false]
      congr 1
      ext c
      simp only [List.mem_toFinset, List.mem_map, SortedSet.mem_insert, Finset.mem_union,
        Finset.mem_singleton]
      constructor
      · rintro ⟨t', rfl | ht', rfl⟩
        · exact Or.inr rfl
        · exact Or.inl ⟨t', ht', rfl⟩
      · rintro (⟨t', ht', rfl⟩ | rfl)
        · exact ⟨t', Or.inr ht', rfl⟩
        · exact ⟨t, Or.inl rfl, rfl⟩

theorem setIsMegamorphic_spec {d : DexPcData} (hd : d.WellFormed ex n) :
    d.setIsMegamorphic.WellFormed ex n ∧
      d.setIsMegamorphic.content ex n = d.content ex n ⊔ .many := by
  by_cases hmiss : d.isMissingTypes = true
  · -- a cache missing types stays so
    have hsame : d.setIsMegamorphic = d := if_pos hmiss
    rw [hsame]
    exact ⟨hd, by simp [content, hmiss]⟩
  · have hmega : d.setIsMegamorphic = { d with isMegamorphic := true, classes := [] } :=
      if_neg hmiss
    rw [hmega]
    refine ⟨⟨List.Pairwise.nil, fun _ h => by cases h⟩, ?_⟩
    simp only [content, hmiss, Bool.false_eq_true, if_false, if_true]
    split_ifs
    · rfl
    · exact (CappedSet.ofFinset_sup_many _).symm

theorem setIsMissingTypes_spec (d : DexPcData) :
    d.setIsMissingTypes.WellFormed ex n ∧
      d.setIsMissingTypes.content ex n = d.content ex n ⊔ .unknown :=
  ⟨⟨List.Pairwise.nil, fun _ h => by cases h⟩, by simp [setIsMissingTypes, content]⟩

end DexPcData

end

end ProfileCompilationInfo

end Art
