import Mathlib
import Art.Profile.Content

/-!
# `MergeWith` is a join

Read through `ClassRef`, a successful `MergeWith` leaves each profile key with the union of the
two class sets, the or of the two flag words of each method, and the join of the two caches of
each dex pc (`mergeWith_join`).  The proof follows the loops of `MergeWith` from the inside out:
a class (`addClass_spec`), the cache of a dex pc (`mergeDexPcData_spec`), the caches of a method
(`mergeInlineCache_spec`, by `SortedMap.lookupIn_foldlM`), a dex file (`mergeDexFileData_spec`),
and the profile, whose extra descriptors and dex files are first matched by content.
-/

namespace Art

namespace ProfileCompilationInfo

open Word32

/-- `remap` sends each extra descriptor of `exB` to the index of the same descriptor in `ex`. -/
def RemapsExtra (exB ex : List String) (remap : List Nat) : Prop :=
  ∀ j < exB.length, remap.getD j kMaxExtraDescriptors < ex.length ∧
    ex.getD (remap.getD j kMaxExtraDescriptors) "" = exB.getD j ""

section

variable {ex exB : List String} {remap : List Nat} {n : Nat}

/-- A class of the other profile with an extra descriptor that `MergeWith` can represent here
names the same class. -/
theorem remapExtra_spec (hremap : RemapsExtra exB ex remap) {t : Nat} (ht : ValidType exB n t)
    (hle : n ≤ t)
    (hfit : ¬remap.getD (t - n) kMaxExtraDescriptors ≥ u32I ((kDexNoIndex16 : Int) - n)) :
    ValidType ex n ((n + remap.getD (t - n) kMaxExtraDescriptors) % 2 ^ 16) ∧
      classRef ex n ((n + remap.getD (t - n) kMaxExtraDescriptors) % 2 ^ 16) =
        classRef exB n t := by
  obtain ⟨hidx, hdesc⟩ := hremap (t - n) (by unfold ValidType at ht; omega)
  -- `t` is a `uint16_t` at or above `numTypeIds`, so the bound is `0xFFFF - numTypeIds`
  have hn : n ≤ kDexNoIndex16 := by unfold ValidType at ht; unfold kDexNoIndex16; omega
  rw [u32I_of_lt (by omega) (by unfold kDexNoIndex16; omega)] at hfit
  have hsum : n + remap.getD (t - n) kMaxExtraDescriptors < 2 ^ 16 := by
    unfold kDexNoIndex16 at hn hfit; omega
  rw [Nat.mod_eq_of_lt hsum]
  refine ⟨⟨by omega, hsum⟩, ?_⟩
  unfold classRef
  rw [if_neg (by omega), if_neg (by omega), Nat.add_sub_cancel_left, hdesc]

/-- A class of the other profile that `MergeWith` can represent here names the same class. -/
theorem remapTypeIndex_spec (hremap : RemapsExtra exB ex remap) {t t' : Nat}
    (ht : ValidType exB n t) (h : remapTypeIndex n remap t = some t') :
    ValidType ex n t' ∧ classRef ex n t' = classRef exB n t := by
  unfold remapTypeIndex at h
  dsimp only at h
  split_ifs at h with hlt hfull
  · cases h
    exact ⟨⟨by omega, ht.2⟩, by rw [classRef_eq_of_lt hlt, classRef_eq_of_lt hlt]⟩
  · cases h
    exact remapExtra_spec hremap ht (by omega) hfull

namespace DexPcData

/-- The classes of a cache of the other profile added one by one. -/
theorem addClasses_spec (hex : ex.Nodup) (hremap : RemapsExtra exB ex remap) :
    ∀ {cs : List Nat} {d d' : DexPcData}, (∀ t ∈ cs, ValidType exB n t) → d.WellFormed ex n →
    cs.foldlM (addRemappedClass n remap) d = .ok d' →
    d'.WellFormed ex n ∧
      d'.content ex n = d.content ex n ⊔ CappedSet.ofFinset (cs.map (classRef exB n)).toFinset
  | [], d, d', _, hd, h => by
    cases h
    refine ⟨hd, ?_⟩
    rw [List.map_nil, List.toFinset_nil, ← CappedSet.bot_eq, sup_bot_eq]
  | t :: cs, d, d', hv, hd, h => by
    rw [List.foldlM_cons] at h
    obtain ⟨d₁, h₁, h⟩ := Except.bind_eq_ok.mp h
    unfold addRemappedClass at h₁
    cases hr : remapTypeIndex n remap t with
    | none => rw [hr] at h₁; cases h₁
    | some t' =>
      rw [hr] at h₁
      cases h₁
      obtain ⟨hvalid, hclass⟩ := remapTypeIndex_spec hremap (hv t List.mem_cons_self) hr
      obtain ⟨hd₁, hc₁⟩ := addClass_spec hex hd hvalid
      obtain ⟨hd', hc'⟩ := addClasses_spec hex hremap (fun t ht => hv t (List.mem_cons_of_mem _ ht))
        hd₁ h
      refine ⟨hd', ?_⟩
      rw [hc', hc₁, hclass, sup_assoc, CappedSet.ofFinset_sup_ofFinset, List.map_cons,
        List.toFinset_cons, Finset.insert_eq]

/-- The cache of a dex pc of the other profile joined to this one's. -/
theorem mergeDexPcData_spec (hex : ex.Nodup) (hremap : RemapsExtra exB ex remap)
    {d od d' : DexPcData} (hd : d.WellFormed ex n) (hod : od.WellFormed exB n)
    (h : mergeDexPcData n remap d od = .ok d') :
    d'.WellFormed ex n ∧ d'.content ex n = d.content ex n ⊔ od.content exB n := by
  unfold mergeDexPcData at h
  by_cases hmiss : od.isMissingTypes = true
  · rw [if_pos hmiss] at h
    cases h
    rw [show od.content exB n = .unknown from if_pos hmiss]
    exact setIsMissingTypes_spec d
  rw [if_neg hmiss] at h
  by_cases hmega : od.isMegamorphic = true
  · rw [if_pos hmega] at h
    cases h
    rw [show od.content exB n = .many by simp [content, hmiss, hmega]]
    exact setIsMegamorphic_spec hd
  rw [if_neg hmega] at h
  rw [content_of_classes (Bool.eq_false_iff.mpr hmega) (Bool.eq_false_iff.mpr hmiss)]
  exact addClasses_spec hex hremap hod.valid hd h

end DexPcData

/-- The caches of a method of the other profile joined to this one's, dex pc by dex pc. -/
theorem mergeInlineCache_spec (hex : ex.Nodup) (hremap : RemapsExtra exB ex remap)
    {ic oic ic' : InlineCacheMap} (hic : InlineCacheWF ex n ic) (hoic : InlineCacheWF exB n oic)
    (h : mergeInlineCache n remap ic oic = .ok ic') :
    InlineCacheWF ex n ic' ∧
      inlineCacheContent ex n ic' = inlineCacheContent ex n ic ⊔ inlineCacheContent exB n oic := by
  have hjoin := SortedMap.lookupIn_foldlM id (InlineCacheWF ex n) (A := DexPcData.content ex n)
    (B := DexPcData.content exB n) (fun m e m' he hm hstep => by
      have hw : e.2.WellFormed exB n :=
        hoic.2 e.1 e.2 (SortedMap.lookup_eq_some_of_mem hoic.1.nodup he)
      obtain ⟨hvals, hlook⟩ := SortedMap.updateE_step (P := DexPcData.WellFormed ex n)
        DexPcData.content_empty DexPcData.wellFormed_empty
        (fun v v' hv hmerge => DexPcData.mergeDexPcData_spec hex hremap hv hw hmerge) hm.2 hstep
      exact ⟨⟨hm.1.updateE hstep, hvals⟩, hlook⟩) hoic.1.nodup hic h
  exact ⟨hjoin.1, funext hjoin.2⟩

theorem inlineCacheContent_nil : inlineCacheContent ex n [] = ⊥ := rfl

theorem inlineCacheWF_nil : InlineCacheWF ex n [] :=
  ⟨List.Pairwise.nil, fun _ _ h => by cases h⟩

namespace DexFileData

/-- The classes of the other dex file that have an extra descriptor, added one by one. -/
theorem insertRemapped_spec (hremap : RemapsExtra exB ex remap) :
    ∀ {ts : List Nat} {d d' : DexFileData}, (∀ t ∈ ts, ValidType exB n t ∧ n ≤ t) →
    d.classSet.Pairwise (· < ·) → (∀ t ∈ d.classSet, ValidType ex n t) →
    ts.foldlM (insertRemappedClass n remap) d = .ok d' →
    d' = { d with classSet := d'.classSet } ∧ d'.classSet.Pairwise (· < ·) ∧
      (∀ t ∈ d'.classSet, ValidType ex n t) ∧
      (d'.classSet.map (classRef ex n)).toFinset =
        (d.classSet.map (classRef ex n)).toFinset ∪ (ts.map (classRef exB n)).toFinset
  | [], d, d', _, hs, hv, h => by
    cases h
    exact ⟨rfl, hs, hv, by simp⟩
  | t :: ts, d, d', hts, hs, hv, h => by
    rw [List.foldlM_cons] at h
    obtain ⟨d₁, h₁, h⟩ := Except.bind_eq_ok.mp h
    obtain ⟨ht, hle⟩ := hts t List.mem_cons_self
    -- at or above `numTypeIds` the `uint32_t` difference is the index of the extra descriptor
    have hdiff : u32I ((t : Int) - n) = t - n := by
      rw [u32I_of_lt (by omega) (by unfold ValidType at ht; omega)]
      omega
    unfold insertRemappedClass at h₁
    rw [hdiff] at h₁
    dsimp only at h₁
    split_ifs at h₁ with hfull
    cases h₁
    obtain ⟨hvalid, hclass⟩ := remapExtra_spec hremap ht hle hfull
    have hv₁ : ∀ u ∈ SortedSet.insert ((n + remap.getD (t - n) kMaxExtraDescriptors) % 2 ^ 16)
        d.classSet, ValidType ex n u := by
      intro u hu
      rcases SortedSet.mem_insert.mp hu with rfl | hu
      · exact hvalid
      · exact hv u hu
    obtain ⟨hframe, hs', hv', hcl⟩ := insertRemapped_spec hremap
      (fun u hu => hts u (List.mem_cons_of_mem _ hu)) (SortedSet.pairwise_insert hs _) hv₁ h
    refine ⟨hframe, hs', hv', ?_⟩
    rw [hcl, SortedSet.toFinset_map_insert, hclass, List.map_cons, List.toFinset_cons,
      Finset.insert_union, Finset.union_insert]

/-- The classes of the other dex file joined to this one's, for a dex file of at most
`kDexNoIndex16` type ids, whose `TypeIndex` is not cut. -/
theorem mergeClassSet_spec (hremap : RemapsExtra exB ex remap) {d od d' : DexFileData}
    (hfit : d.numTypeIds ≤ kDexNoIndex16)
    (hs : d.classSet.Pairwise (· < ·)) (hv : ∀ t ∈ d.classSet, ValidType ex d.numTypeIds t)
    (hos : od.classSet.Pairwise (· < ·)) (hov : ∀ t ∈ od.classSet, ValidType exB d.numTypeIds t)
    (h : mergeClassSet remap d od = .ok d') :
    d' = { d with classSet := d'.classSet } ∧ d'.classSet.Pairwise (· < ·) ∧
      (∀ t ∈ d'.classSet, ValidType ex d.numTypeIds t) ∧
      d'.classes ex = d.classes ex ∪ (od.classSet.map (classRef exB d.numTypeIds)).toFinset := by
  unfold mergeClassSet at h
  dsimp only at h
  rw [Nat.mod_eq_of_lt (by unfold kDexNoIndex16 at hfit; omega)] at h
  -- the classes below `num_type_ids` have a `TypeId` and name the same class in both profiles
  have hlow : ∀ t ∈ od.classSet.takeWhile (· < d.numTypeIds),
      ValidType ex d.numTypeIds t ∧ classRef ex d.numTypeIds t = classRef exB d.numTypeIds t := by
    intro t ht
    have hlt : t < d.numTypeIds := by simpa using List.mem_takeWhile_imp ht
    refine ⟨⟨by omega, (hov t ((List.takeWhile_sublist _).subset ht)).2⟩, ?_⟩
    rw [classRef_eq_of_lt hlt, classRef_eq_of_lt hlt]
  have hv₁ : ∀ t ∈ (od.classSet.takeWhile (· < d.numTypeIds)).foldl
      (fun classSet typeIndex => SortedSet.insert typeIndex classSet) d.classSet,
      ValidType ex d.numTypeIds t := by
    intro t ht
    rcases SortedSet.mem_foldl_insert.mp ht with ht | ht
    · exact hv t ht
    · exact (hlow t ht).1
  -- the class set is sorted, so the rest are at or above `num_type_ids`
  have hhigh : ∀ t ∈ od.classSet.dropWhile (· < d.numTypeIds),
      ValidType exB d.numTypeIds t ∧ d.numTypeIds ≤ t := fun t ht =>
    ⟨hov t ((List.dropWhile_sublist _).subset ht), SortedSet.le_of_mem_dropWhile hos ht⟩
  obtain ⟨hframe, hs', hv', hcl⟩ := insertRemapped_spec hremap hhigh
    (SortedSet.pairwise_foldl_insert hs _) hv₁ h
  refine ⟨hframe, hs', hv', ?_⟩
  rw [hframe]
  unfold classes
  dsimp only
  rw [hcl, SortedSet.toFinset_map_foldl_insert,
    List.map_congr_left (fun t ht => (hlow t ht).2), Finset.union_assoc, ← List.toFinset_append,
    ← List.map_append, List.takeWhile_append_dropWhile]

/-- The hot methods of the other dex file joined to this one's, method by method. -/
theorem mergeMethods_spec (hex : ex.Nodup) (hremap : RemapsExtra exB ex remap)
    {d od d' : DexFileData} (hmo : SortedMap.Ordered d.methodMap)
    (hmc : ∀ m ic, d.methodMap.lookup m = some ic → InlineCacheWF ex d.numTypeIds ic)
    (homo : SortedMap.Ordered od.methodMap)
    (homc : ∀ m ic, od.methodMap.lookup m = some ic → InlineCacheWF exB d.numTypeIds ic)
    (h : mergeMethods remap d od = .ok d') :
    d' = { d with methodMap := d'.methodMap } ∧ SortedMap.Ordered d'.methodMap ∧
      (∀ m ic, d'.methodMap.lookup m = some ic → InlineCacheWF ex d.numTypeIds ic) ∧
      d'.methods ex = d.methods ex ⊔
        SortedMap.lookupIn (inlineCacheContent exB d.numTypeIds) od.methodMap := by
  -- the loop changes the method map only, keeping it sorted with well-formed caches
  have hjoin := SortedMap.lookupIn_foldlM DexFileData.methodMap
    (fun s => s = { d with methodMap := s.methodMap } ∧ SortedMap.Ordered s.methodMap ∧
      ∀ m ic, s.methodMap.lookup m = some ic → InlineCacheWF ex d.numTypeIds ic)
    (A := inlineCacheContent ex d.numTypeIds) (B := inlineCacheContent exB d.numTypeIds)
    (fun s e s' he hs hstep => by
      obtain ⟨hframe, hso, hsc⟩ := hs
      obtain ⟨methodMap₀, rfl⟩ : ∃ methodMap₀, s = { d with methodMap := methodMap₀ } :=
        ⟨_, hframe⟩
      have hw : InlineCacheWF exB d.numTypeIds e.2 :=
        homc e.1 e.2 (SortedMap.lookup_eq_some_of_mem homo.nodup he)
      unfold mergeMethod at hstep
      split_ifs at hstep with hbound
      split at hstep
      · rename_i methodMap hupdate
        cases hstep
        obtain ⟨hvals, hlook⟩ := SortedMap.updateE_step (P := InlineCacheWF ex d.numTypeIds)
          inlineCacheContent_nil inlineCacheWF_nil
          (fun v v' hv hmerge => mergeInlineCache_spec hex hremap hv hw hmerge) hsc hupdate
        exact ⟨⟨rfl, hso.updateE hupdate, hvals⟩, hlook⟩
      · cases hstep) homo.nodup ⟨rfl, hmo, hmc⟩ h
  obtain ⟨⟨hframe, hso, hsc⟩, hlook⟩ := hjoin
  refine ⟨hframe, hso, hsc, ?_⟩
  rw [hframe]
  exact funext hlook

/-! ### Hotness flags -/

open MethodHotness

/-- The flags `GetHotnessInfo` reads from the bitmap. -/
def storedFlags (d : DexFileData) (m : Nat) : Nat :=
  (forMethodBitmapHotnessFlags d.isForBootImage).foldl (fun flags flag =>
    if d.loadBit (d.methodFlagBitmapIndex flag m) then flags ||| flag else flags) 0

theorem getHotnessInfo_flags (d : DexFileData) (m : Nat) :
    (d.getHotnessInfo m).flags =
      d.storedFlags m ||| if (d.methodMap.lookup m).isSome then kFlagHot else 0 := by
  unfold getHotnessInfo storedFlags
  cases d.methodMap.lookup m <;> simp

/-- Or-ing in the flags that hold of either of two predicates or-s the two collections. -/
theorem foldl_or_ite (fs : List Nat) (p q : Nat → Bool) (a b : Nat) :
    fs.foldl (fun acc f => if p f || q f then acc ||| f else acc) (a ||| b) =
      fs.foldl (fun acc f => if p f then acc ||| f else acc) a |||
        fs.foldl (fun acc f => if q f then acc ||| f else acc) b := by
  induction fs generalizing a b with
  | nil => rfl
  | cons f fs ih =>
    simp only [List.foldl_cons]
    rw [← ih]
    congr 1
    cases p f <;> cases q f <;>
      simp only [Bool.or_true, Bool.or_false, if_true, if_false, Bool.false_eq_true] <;>
      apply Nat.eq_of_testBit_eq <;> intro i <;> simp only [Nat.testBit_lor] <;>
      cases a.testBit i <;> cases b.testBit i <;> cases f.testBit i <;> rfl

theorem loadBit_mergeBitmap {d od : DexFileData}
    (hlen : d.bitmapStorage.length = od.bitmapStorage.length) (i : Nat) :
    (d.mergeBitmap od).loadBit i = (d.loadBit i || od.loadBit i) := by
  unfold loadBit mergeBitmap
  simp only [List.getD_eq_getElem?_getD, List.getElem?_mapIdx]
  cases h : d.bitmapStorage[i / kBitsPerByte]? with
  | none =>
    have hod : od.bitmapStorage[i / kBitsPerByte]? = none := by
      rw [List.getElem?_eq_none_iff] at h ⊢
      omega
    simp [hod]
  | some x => simp

theorem storedFlags_mergeBitmap {d od : DexFileData}
    (hlen : d.bitmapStorage.length = od.bitmapStorage.length)
    (hkind : od.isForBootImage = d.isForBootImage) (hm : od.numMethodIds = d.numMethodIds)
    (m : Nat) : (d.mergeBitmap od).storedFlags m = d.storedFlags m ||| od.storedFlags m := by
  unfold storedFlags
  simp only [loadBit_mergeBitmap hlen, hkind]
  rw [← foldl_or_ite]
  unfold methodFlagBitmapIndex
  rw [hm]
  rfl

/-- What merging the other dex file `od` into `d` makes of it: the same dex file with the union of
the classes, the or of the flags and the join of the caches. -/
structure JoinOf (ex exB : List String) (d od d' : DexFileData) : Prop where
  frame :
    d' = { d with classSet := d'.classSet, methodMap := d'.methodMap, bitmapStorage := d'.bitmapStorage }
  classes : d'.classes ex = d.classes ex ∪ od.classes exB
  flags : ∀ m, (d'.getHotnessInfo m).flags =
    (d.getHotnessInfo m).flags ||| (od.getHotnessInfo m).flags
  methods : d'.methods ex = d.methods ex ⊔ od.methods exB

/-- A dex file of the other profile merged into this one's. -/
theorem mergeDexFileData_spec (hex : ex.Nodup) (hremap : RemapsExtra exB ex remap) {kind : Bool}
    {d od d' : DexFileData} (hd : d.WellFormed ex kind) (hod : od.WellFormed exB kind)
    (hfit : od.numTypeIds ≤ kDexNoIndex16)
    (hn : od.numTypeIds = d.numTypeIds) (hm : od.numMethodIds = d.numMethodIds)
    (h : mergeDexFileData true remap d od = .ok d') :
    d'.WellFormed ex kind ∧ JoinOf ex exB d od d' := by
  unfold mergeDexFileData at h
  obtain ⟨d₁, h₁, h⟩ := Except.bind_eq_ok.mp h
  obtain ⟨d₂, h₂, h⟩ := Except.bind_eq_ok.mp h
  cases h
  obtain ⟨hf₁, hs₁, hv₁, hc₁⟩ := mergeClassSet_spec hremap (hn ▸ hfit) hd.classes_sorted
    hd.classes_valid hod.classes_sorted (hn ▸ hod.classes_valid) h₁
  obtain ⟨cs, rfl⟩ : ∃ cs, d₁ = { d with classSet := cs } := ⟨_, hf₁⟩
  obtain ⟨hf₂, ho₂, hc₂, hm₂⟩ := mergeMethods_spec (d := { d with classSet := cs }) hex hremap
    hd.methods_ordered hd.caches_wf hod.methods_ordered (fun m ic h => hn ▸ hod.caches_wf m ic h) h₂
  obtain ⟨mm, rfl⟩ : ∃ mm, d₂ = { d with classSet := cs, methodMap := mm } := ⟨_, hf₂⟩
  have hlen : d.bitmapStorage.length = od.bitmapStorage.length := by
    rw [hd.bitmap_length, hod.bitmap_length, hm, hd.kind, hod.kind]
  have hkind : od.isForBootImage = d.isForBootImage := by rw [hd.kind, hod.kind]
  refine ⟨⟨hs₁, hv₁, ho₂, hc₂, by simp [mergeBitmap, hd.bitmap_length], hd.kind⟩,
    ⟨rfl, hc₁.trans (by simp only [classes, hn]), fun m => ?_, hm₂.trans (by simp only [methods, hn])⟩⟩
  have hhot : (mm.lookup m).isSome = true ↔
      (d.methodMap.lookup m).isSome = true ∨ (od.methodMap.lookup m).isSome = true := by
    have hpt := congrFun hm₂ m
    rw [Pi.sup_apply] at hpt
    unfold methods at hpt
    dsimp only at hpt
    rw [← SortedMap.lookupIn_ne_bot_iff (inlineCacheContent ex d.numTypeIds), hpt, Ne,
      sup_eq_bot_iff, not_and_or, ← Ne, ← Ne, SortedMap.lookupIn_ne_bot_iff,
      SortedMap.lookupIn_ne_bot_iff]
  have hif : (if (mm.lookup m).isSome then kFlagHot else 0) =
      (if (d.methodMap.lookup m).isSome then kFlagHot else 0) |||
        (if (od.methodMap.lookup m).isSome then kFlagHot else 0) := by
    by_cases hdm : (d.methodMap.lookup m).isSome <;> by_cases hom : (od.methodMap.lookup m).isSome <;>
      simp [hhot, hdm, hom]
  rw [getHotnessInfo_flags, getHotnessInfo_flags, getHotnessInfo_flags,
    storedFlags_mergeBitmap (d := { d with classSet := cs, methodMap := mm }) hlen hkind hm]
  show (d.storedFlags m ||| od.storedFlags m) ||| (if (mm.lookup m).isSome then kFlagHot else 0) = _
  rw [hif]
  ac_rfl

end DexFileData

/-! ## Appending extra descriptors

`MergeWith` appends the other profile's new descriptors to the extra descriptors, which changes
neither what the classes of this profile name nor their well-formedness. -/

section Extend

variable {ex' : List String} (hpre : ex <+: ex')
include hpre

theorem ValidType.mono {t : Nat} (ht : ValidType ex n t) : ValidType ex' n t :=
  ⟨ht.1.trans_le (by have := hpre.length_le; omega), ht.2⟩

theorem classRef_of_extend {t : Nat} (ht : ValidType ex n t) :
    classRef ex' n t = classRef ex n t := by
  unfold classRef
  split_ifs with hlt
  · rfl
  · have hlt' : t - n < ex.length := by unfold ValidType at ht; omega
    rw [List.getD_eq_getElem _ _ hlt', List.getD_eq_getElem _ _ (hlt'.trans_le hpre.length_le),
      hpre.getElem hlt']

theorem DexPcData.WellFormed.mono {d : DexPcData} (hd : d.WellFormed ex n) : d.WellFormed ex' n :=
  ⟨hd.sorted, fun t ht => (hd.valid t ht).mono hpre⟩

theorem DexPcData.content_of_extend {d : DexPcData} (hd : d.WellFormed ex n) :
    d.content ex' n = d.content ex n := by
  unfold DexPcData.content
  rw [List.map_congr_left (fun t ht => classRef_of_extend hpre (hd.valid t ht))]

theorem InlineCacheWF.mono {ic : InlineCacheMap} (h : InlineCacheWF ex n ic) :
    InlineCacheWF ex' n ic :=
  ⟨h.1, fun pc v hv => (h.2 pc v hv).mono hpre⟩

theorem inlineCacheContent_of_extend {ic : InlineCacheMap} (h : InlineCacheWF ex n ic) :
    inlineCacheContent ex' n ic = inlineCacheContent ex n ic :=
  funext (SortedMap.lookupIn_congr (fun pc v hv => DexPcData.content_of_extend hpre (h.2 pc v hv)))

theorem DexFileData.WellFormed.mono {kind : Bool} {d : DexFileData} (hd : d.WellFormed ex kind) :
    d.WellFormed ex' kind :=
  { hd with
    classes_valid := fun t ht => (hd.classes_valid t ht).mono hpre
    caches_wf := fun m ic h => (hd.caches_wf m ic h).mono hpre }

theorem DexFileData.classes_of_extend {kind : Bool} {d : DexFileData} (hd : d.WellFormed ex kind) :
    d.classes ex' = d.classes ex := by
  unfold DexFileData.classes
  rw [List.map_congr_left (fun t ht => classRef_of_extend hpre (hd.classes_valid t ht))]

theorem DexFileData.methods_of_extend {kind : Bool} {d : DexFileData} (hd : d.WellFormed ex kind) :
    d.methods ex' = d.methods ex :=
  funext (SortedMap.lookupIn_congr
    (fun m ic h => inlineCacheContent_of_extend hpre (hd.caches_wf m ic h)))

end Extend

/-! ## New dex files -/

namespace DexFileData

/-- A dex file as `GetOrAddDexFileData` adds it: no class, no method, an empty bitmap. -/
def Empty (d : DexFileData) : Prop :=
  d.classSet = [] ∧ d.methodMap = [] ∧ ∀ x ∈ d.bitmapStorage, x = 0

theorem create_empty (key : String) (checksum index numTypes numMethods : Nat) (kind : Bool) :
    (create key checksum index numTypes numMethods kind).Empty :=
  ⟨rfl, rfl, fun _ hx => List.eq_of_mem_replicate hx⟩

theorem create_wellFormed (key : String) (checksum index numTypes numMethods : Nat) (kind : Bool) :
    (create key checksum index numTypes numMethods kind).WellFormed ex kind where
  classes_sorted := List.Pairwise.nil
  classes_valid := fun _ h => by cases h
  methods_ordered := List.Pairwise.nil
  caches_wf := fun _ _ h => by cases h
  bitmap_length := List.length_replicate
  kind := rfl

theorem Empty.classes {d : DexFileData} (h : d.Empty) : d.classes ex = ∅ := by
  simp [DexFileData.classes, h.1]

theorem Empty.methods {d : DexFileData} (h : d.Empty) : d.methods ex = ⊥ := by
  unfold DexFileData.methods
  rw [h.2.1]
  rfl

theorem Empty.flags {d : DexFileData} (h : d.Empty) (m : Nat) : (d.getHotnessInfo m).flags = 0 := by
  have hbit : ∀ i, d.loadBit i = false := by
    intro i
    unfold loadBit
    rw [List.getD_eq_getElem?_getD]
    cases hi : d.bitmapStorage[i / kBitsPerByte]? with
    | none => simp
    | some x => simp [h.2.2 x (List.mem_of_getElem? hi)]
  rw [getHotnessInfo_flags, h.2.1]
  simp [storedFlags, hbit]

end DexFileData

/-! ## The dex files of a profile, by key -/

section Profile

variable {p : ProfileCompilationInfo}

theorem findDexData_eq_some_iff (hp : p.WellFormed) {key : String} {d : DexFileData} :
    p.findDexData key = some d ↔ d ∈ p.info ∧ d.profileKey = key :=
  KeyedList.find?_eq_some_iff hp.keys_nodup

theorem findDexData_eq_none_iff {key : String} :
    p.findDexData key = none ↔ key ∉ p.info.map (·.profileKey) :=
  KeyedList.find?_eq_none_iff

/-- Dex file `i` of `p` has the key and id counts of `od`. -/
def IndexOf (p : ProfileCompilationInfo) (i : Nat) (od : DexFileData) : Prop :=
  ∃ hi : i < p.info.length, p.info[i].profileKey = od.profileKey ∧
    p.info[i].checksum = od.checksum ∧ p.info[i].numTypeIds = od.numTypeIds ∧
    p.info[i].numMethodIds = od.numMethodIds

theorem IndexOf.of_extend {p p' : ProfileCompilationInfo} (hpre : p.info <+: p'.info) {i : Nat}
    {od : DexFileData} (h : IndexOf p i od) : IndexOf p' i od := by
  obtain ⟨hi, hk⟩ := h
  refine ⟨hi.trans_le hpre.length_le, ?_⟩
  rw [← hpre.getElem hi]
  exact hk

/-- `GetOrAddDexFileData` when it returns an index: the dex file of the key, added empty if it
was not there. -/
theorem getOrAddDexFileData_spec (hp : p.WellFormed) {key : String}
    {checksum numTypeIds numMethodIds i : Nat} {p' : ProfileCompilationInfo}
    (h : p.getOrAddDexFileData key checksum numTypeIds numMethodIds = (p', some i)) :
    p'.extraDescriptors = p.extraDescriptors ∧ p'.forBootImage = p.forBootImage ∧
      p.info <+: p'.info ∧ (∀ d ∈ p'.info, d ∈ p.info ∨ (d.profileKey = key ∧ d.Empty)) ∧
      p'.WellFormed ∧ ∃ hi : i < p'.info.length, p'.info[i].profileKey = key ∧
        p'.info[i].checksum = checksum ∧ p'.info[i].numTypeIds = numTypeIds ∧
        p'.info[i].numMethodIds = numMethodIds := by
  unfold getOrAddDexFileData at h
  split at h
  · -- the key is there: nothing is added, and the checks passed
    rename_i j hj
    obtain ⟨hjl, hkey, -⟩ := List.findIdx?_eq_some_iff_getElem.mp hj
    rw [List.getElem?_eq_getElem hjl] at h
    simp only [Prod.mk.injEq] at h
    obtain ⟨rfl, hcheck⟩ := h
    unfold checkDexFileData at hcheck
    split_ifs at hcheck with hc hn
    cases hcheck
    refine ⟨rfl, rfl, List.prefix_refl _, fun d hd => Or.inl hd, hp, hjl, by simpa using hkey, ?_⟩
    simp only [not_or, not_not, ne_eq] at hc hn
    exact ⟨hc, hn.1.symm, hn.2.symm⟩
  · rename_i hnone
    split_ifs at h with hfull
    · cases h
    simp only [Prod.mk.injEq] at h
    obtain ⟨rfl, hcheck⟩ := h
    unfold checkDexFileData at hcheck
    simp only [DexFileData.create, ne_eq, not_true_eq_false, if_false, or_self] at hcheck
    cases hcheck
    have hkey : key ∉ p.info.map (·.profileKey) := by
      rw [findProfileIndex, List.findIdx?_eq_none_iff] at hnone
      simp only [List.mem_map, not_exists, not_and]
      intro d hd hdk
      have := hnone d hd
      simp [hdk] at this
    refine ⟨rfl, rfl, List.prefix_append _ _, fun d hd => ?_, ?_, by simp, ?_⟩
    · rcases List.mem_append.mp hd with hd | hd
      · exact Or.inl hd
      · rw [List.mem_singleton] at hd
        subst hd
        exact Or.inr ⟨rfl, DexFileData.create_empty ..⟩
    · refine ⟨?_, fun j hj => ?_, fun d hd => ?_, hp.extraDescriptors_nodup⟩
      · rw [List.map_append, List.nodup_append]
        refine ⟨hp.keys_nodup, List.nodup_singleton _, ?_⟩
        intro a ha b hb
        simp only [List.map_cons, List.map_nil, List.mem_singleton] at hb
        subst hb
        exact fun h => hkey (h ▸ ha)
      · simp only [List.length_append, List.length_singleton] at hj
        by_cases hjl : j < p.info.length
        · rw [List.getElem_append_left hjl]
          exact hp.profileIndex_eq j hjl
        · rw [List.getElem_append_right (by omega)]
          simp [DexFileData.create]
          omega
      · rcases List.mem_append.mp hd with hd | hd
        · exact hp.dexFiles_wf d hd
        · rw [List.mem_singleton] at hd
          subst hd
          exact DexFileData.create_wellFormed ..
    · simp [DexFileData.create]

/-- The first loop of `MergeWith` gives each dex file of the other profile the index of a dex
file of its key and id counts here, added empty where there was none. -/
theorem remapDexFiles_loop :
    ∀ {others : List DexFileData} {p p₁ : ProfileCompilationInfo} {acc remap : List Nat},
    p.WellFormed → others.foldlM remapDexFile (p, acc) = .ok (p₁, remap) →
    p₁.extraDescriptors = p.extraDescriptors ∧ p₁.forBootImage = p.forBootImage ∧
      p.info <+: p₁.info ∧
      (∀ d ∈ p₁.info, d ∈ p.info ∨ ((∃ od ∈ others, d.profileKey = od.profileKey) ∧ d.Empty)) ∧
      p₁.WellFormed ∧ ∃ rs, remap = acc ++ rs ∧
        ∀ j (hj : j < others.length), IndexOf p₁ (rs.getD j 0) others[j]
  | [], p, p₁, acc, remap, hp, h => by
    cases h
    exact ⟨rfl, rfl, List.prefix_refl _, fun d hd => Or.inl hd, hp, [], by simp,
      fun j hj => absurd hj (Nat.not_lt_zero _)⟩
  | od :: others, p, p₁, acc, remap, hp, h => by
    rw [List.foldlM_cons] at h
    obtain ⟨⟨q, acc₁⟩, h₁, h⟩ := Except.bind_eq_ok.mp h
    unfold remapDexFile at h₁
    split at h₁
    · rename_i q' i hget
      cases h₁
      obtain ⟨hex₁, hkind₁, hpre₁, hnew₁, hwf₁, hidx₁⟩ := getOrAddDexFileData_spec hp hget
      obtain ⟨hex', hkind', hpre', hnew', hwf', rs, hrs, hidx⟩ := remapDexFiles_loop hwf₁ h
      refine ⟨hex'.trans hex₁, hkind'.trans hkind₁, hpre₁.trans hpre', fun d hd => ?_, hwf',
        i :: rs, by rw [hrs]; simp, fun j hj => ?_⟩
      · rcases hnew' d hd with hd | ⟨⟨od', hod', hk⟩, he⟩
        · rcases hnew₁ d hd with hd | ⟨hk, he⟩
          · exact Or.inl hd
          · exact Or.inr ⟨⟨od, List.mem_cons_self, hk⟩, he⟩
        · exact Or.inr ⟨⟨od', List.mem_cons_of_mem _ hod', hk⟩, he⟩
      · cases j with
        | zero => exact IndexOf.of_extend hpre' hidx₁
        | succ j => simpa using hidx j (by simpa using hj)
    · cases h₁

/-- The second loop gives each extra descriptor of the other profile the index of the same
descriptor here, appended where there was none. -/
theorem remapExtraDescriptors_loop :
    ∀ {others : List String} {p p₂ : ProfileCompilationInfo} {acc remap : List Nat},
    p.extraDescriptors.Nodup → others.foldlM remapExtraDescriptor (p, acc) = .ok (p₂, remap) →
    p₂.info = p.info ∧ p₂.forBootImage = p.forBootImage ∧
      p.extraDescriptors <+: p₂.extraDescriptors ∧ p₂.extraDescriptors.Nodup ∧
      ∃ rs, remap = acc ++ rs ∧ RemapsExtra others p₂.extraDescriptors rs
  | [], p, p₂, acc, remap, hp, h => by
    cases h
    exact ⟨rfl, rfl, List.prefix_refl _, hp, [], by simp, fun j hj => absurd hj (Nat.not_lt_zero _)⟩
  | s :: others, p, p₂, acc, remap, hp, h => by
    rw [List.foldlM_cons] at h
    obtain ⟨⟨q, acc₁⟩, h₁, h⟩ := Except.bind_eq_ok.mp h
    obtain ⟨i, hinfo, hkind, hpre, hq, hi, hs, rfl⟩ : ∃ i, q.info = p.info ∧
        q.forBootImage = p.forBootImage ∧ p.extraDescriptors <+: q.extraDescriptors ∧
        q.extraDescriptors.Nodup ∧ i < q.extraDescriptors.length ∧
        q.extraDescriptors.getD i "" = s ∧ acc₁ = acc ++ [i] := by
      unfold remapExtraDescriptor at h₁
      split at h₁
      · rename_i i hfound
        cases h₁
        obtain ⟨hil, his, -⟩ := List.idxOf?_eq_some_iff.mp hfound
        exact ⟨i, rfl, rfl, List.prefix_refl _, hp, hil, by rw [List.getD_eq_getElem _ _ hil, his],
          rfl⟩
      · rename_i hnone
        unfold addExtraDescriptor at h₁
        dsimp only at h₁
        by_cases hfull : p.extraDescriptors.length = kMaxExtraDescriptors
        · simp [hfull] at h₁
        · simp only [hfull, if_false] at h₁
          cases h₁
          refine ⟨p.extraDescriptors.length, rfl, rfl, List.prefix_append _ _, ?_, by simp,
            by simp, rfl⟩
          exact List.nodup_append.mpr ⟨hp, List.nodup_singleton _, fun a ha b hb => by
            rw [List.mem_singleton] at hb
            subst hb
            exact fun h => (List.idxOf?_eq_none_iff.mp hnone) (h ▸ ha)⟩
    obtain ⟨hinfo', hkind', hpre', hq', rs, hrs, hremap⟩ := remapExtraDescriptors_loop hq h
    refine ⟨hinfo'.trans hinfo, hkind'.trans hkind, hpre.trans hpre', hq', i :: rs,
      by rw [hrs]; simp, fun j hj => ?_⟩
    cases j with
    | zero =>
      refine ⟨hi.trans_le hpre'.length_le, ?_⟩
      simp only [List.getD_cons_zero, List.getD_cons_zero]
      rw [List.getD_eq_getElem _ _ (hi.trans_le hpre'.length_le), ← hpre'.getElem hi,
        ← List.getD_eq_getElem _ _ hi, hs]
    | succ j => simpa using hremap j (by simpa using hj)

theorem updateDexFileData_ok {p p₁ : ProfileCompilationInfo} {i : Nat}
    {f : DexFileData → Except DexFileData DexFileData} (hi : i < p.info.length)
    (h : updateDexFileData p i f = .ok p₁) :
    ∃ d', f p.info[i] = .ok d' ∧ p₁ = { p with info := p.info.set i d' } := by
  unfold updateDexFileData at h
  rw [List.getElem?_eq_getElem hi] at h
  dsimp only at h
  split at h
  · rename_i d' hf
    cases h
    exact ⟨d', hf, rfl⟩
  · cases h

/-- The dex file at `i` replaced by one with the same key, checksum and id counts. -/
theorem IndexOf.set {p : ProfileCompilationInfo} {i j : Nat} {x : DexFileData}
    {od : DexFileData} (hi : i < p.info.length) (hkey : x.profileKey = p.info[i].profileKey)
    (hsum : x.checksum = p.info[i].checksum) (hn : x.numTypeIds = p.info[i].numTypeIds)
    (hm : x.numMethodIds = p.info[i].numMethodIds) (h : IndexOf p j od) :
    IndexOf { p with info := p.info.set i x } j od := by
  obtain ⟨hj, hk⟩ := h
  refine ⟨by simpa using hj, ?_⟩
  simp only [List.getElem_set]
  split_ifs with hij
  · subst hij
    rw [hkey, hsum, hn, hm]
    exact hk
  · exact hk

/-- The last loop merges each dex file of the other profile into the dex file of its key here,
and leaves the others. -/
theorem mergeDexFiles_loop (hremap : RemapsExtra exB ex remap) {kind : Bool}
    {dexRemap : List Nat} :
    ∀ {others : List DexFileData} {p r : ProfileCompilationInfo},
    p.WellFormed → p.extraDescriptors = ex → p.forBootImage = kind →
    (others.map (·.profileKey)).Nodup → (∀ od ∈ others, od.WellFormed exB kind) →
    (∀ od ∈ others, od.numTypeIds ≤ kDexNoIndex16) →
    (∀ od ∈ others, IndexOf p (dexRemap.getD od.profileIndex 0) od) →
    others.foldlM (mergeDexFile true dexRemap remap) p = .ok r →
    r.WellFormed ∧ r.extraDescriptors = ex ∧ r.forBootImage = kind ∧
      (∀ key, key ∉ others.map (·.profileKey) → r.findDexData key = p.findDexData key) ∧
      ∀ od ∈ others, ∃ d d', p.findDexData od.profileKey = some d ∧
        r.findDexData od.profileKey = some d' ∧ DexFileData.JoinOf ex exB d od d'
  | [], p, r, hp, hex, hkind, _, _, _, _, h => by
    cases h
    exact ⟨hp, hex, hkind, fun _ _ => rfl, fun od hod => by cases hod⟩
  | od :: others, p, r, hp, hex, hkind, hkeys, hwf, hfit, hidx, h => by
    rw [List.foldlM_cons] at h
    obtain ⟨p₁, h₁, h⟩ := Except.bind_eq_ok.mp h
    obtain ⟨hi, hkey, hsum, hn, hm⟩ := hidx od List.mem_cons_self
    unfold mergeDexFile at h₁
    generalize dexRemap.getD od.profileIndex 0 = i at hi hkey hsum hn hm h₁
    obtain ⟨d', hd', rfl⟩ := updateDexFileData_ok hi h₁
    have hdwf := hp.dexFiles_wf _ (List.getElem_mem hi)
    rw [hex, hkind] at hdwf
    obtain ⟨hwf', hjoin⟩ := DexFileData.mergeDexFileData_spec (hex ▸ hp.extraDescriptors_nodup)
      hremap hdwf (hwf od List.mem_cons_self) (hfit od List.mem_cons_self) hn.symm hm.symm hd'
    have hk' : d'.profileKey = p.info[i].profileKey := by rw [hjoin.frame]
    have hs' : d'.checksum = p.info[i].checksum := by rw [hjoin.frame]
    have hn' : d'.numTypeIds = p.info[i].numTypeIds := by rw [hjoin.frame]
    have hm' : d'.numMethodIds = p.info[i].numMethodIds := by rw [hjoin.frame]
    have hpi' : d'.profileIndex = p.info[i].profileIndex := by rw [hjoin.frame]
    have hset := KeyedList.find?_set hp.keys_nodup hi hk'
    have hmap : (p.info.set i d').map DexFileData.profileKey = p.info.map DexFileData.profileKey := by
      rw [List.map_set, hk', ← List.getElem_map DexFileData.profileKey (h := by simpa using hi),
        List.set_getElem_self]
    have hp₁ : ProfileCompilationInfo.WellFormed { p with info := p.info.set i d' } := by
      refine ⟨hmap ▸ hp.keys_nodup, fun j hj => ?_, fun d hd => ?_, hp.extraDescriptors_nodup⟩
      · simp only [List.getElem_set]
        split_ifs with hij
        · subst hij
          rw [hpi']
          exact hp.profileIndex_eq _ hi
        · exact hp.profileIndex_eq j (by simpa using hj)
      · rcases List.mem_or_eq_of_mem_set hd with hd | rfl
        · exact hp.dexFiles_wf d hd
        · rw [hex, hkind]
          exact hwf'
    have hkeys' := List.nodup_cons.mp hkeys
    obtain ⟨hr, hrex, hrkind, hrest, hothers⟩ := mergeDexFiles_loop hremap hp₁ hex hkind
      hkeys'.2 (fun od' h' => hwf od' (List.mem_cons_of_mem _ h'))
      (fun od' h' => hfit od' (List.mem_cons_of_mem _ h'))
      (fun od' h' => (hidx od' (List.mem_cons_of_mem _ h')).set hi hk' hs' hn' hm') h
    have hfind : p.findDexData od.profileKey = some p.info[i] := by
      rw [← hkey]
      exact KeyedList.find?_getElem hp.keys_nodup hi
    refine ⟨hr, hrex, hrkind, fun key hk => ?_, fun od' hod' => ?_⟩
    · simp only [List.map_cons, List.mem_cons, not_or] at hk
      rw [hrest key hk.2]
      show List.find? _ _ = _
      rw [hset, if_neg (by rw [hk', hkey]; exact hk.1)]
      rfl
    · rcases List.mem_cons.mp hod' with rfl | hod'
      · refine ⟨_, _, hfind, ?_, hjoin⟩
        rw [hrest _ hkeys'.1]
        show List.find? _ _ = _
        rw [hset, if_pos (by rw [hk', hkey])]
      · obtain ⟨d₁, d₁', hd₁, hd₁', hj₁⟩ := hothers od' hod'
        have hne : od'.profileKey ≠ od.profileKey := by
          rintro h
          exact hkeys'.1 (List.mem_map.mpr ⟨od', hod', h⟩)
        refine ⟨d₁, d₁', ?_, hd₁', hj₁⟩
        rw [← hd₁]
        show _ = List.find? _ _
        rw [hset, if_neg (by rw [hk', hkey]; exact hne)]
        rfl

end Profile

end

end ProfileCompilationInfo

end Art
