import Art.Profile.Load

/-!
# Loading a profile stays in bounds

Whatever the bytes of the file and whatever inflation makes of a section, `LoadInternal` ends
with the profile or with one of its statuses: no access of the model leaves a vector, a bitmap or
a buffer, and no loop runs out of fuel.

Each reader is shown `Reads` its buffer: it fails with a status, or it succeeds and leaves a
suffix of the buffer.  The checks that carry the bounds are local to one round: a difference that
passes the test against `num_valid_type_indexes - type_index` lands below that count, whatever
the index it starts from, and below it the extra descriptors remap has an entry.  The method index
is the one place where a round needs what the rounds before left: it never passes
`num_valid_method_indexes`, so the `uint32_t` difference does not wrap.
-/

namespace Art

namespace ProfileCompilationInfo

open SafeBuffer Word32 MethodHotness

/-- An error the source returns itself. -/
def LoadError.IsStatus : LoadError → Prop
  | .status _ _ => True
  | _ => False

/-- The source's own outcome: a status, or a result with the property `Q`. -/
def Outcome {α : Type} (Q : α → Prop) : Except LoadError α → Prop
  | .ok a => Q a
  | .error e => e.IsStatus

/-- The outcome is a result or a status. -/
def Checked {α : Type} (r : Except LoadError α) : Prop := Outcome (fun _ => True) r

/-- A reader of the buffer failed with a status, or left a suffix of the buffer. -/
def Reads {α : Type} (buffer : SafeBuffer) (r : Except LoadError (α × SafeBuffer)) : Prop :=
  Outcome (fun x => List.IsSuffix x.2 buffer) r

/-- What a result has, when there is one. -/
def WhenOk {α : Type} (Q : α → Prop) : Except LoadError α → Prop
  | .ok a => Q a
  | .error _ => True

theorem Outcome.mono {α : Type} {Q Q' : α → Prop} {r : Except LoadError α} (h : Outcome Q r)
    (hQ : ∀ a, Q a → Q' a) : Outcome Q' r := by
  cases r with
  | error e => exact h
  | ok a => exact hQ a h

theorem Reads.mono {α : Type} {buffer buffer' : SafeBuffer} {r : Except LoadError (α × SafeBuffer)}
    (h : Reads buffer' r) (hle : List.IsSuffix buffer' buffer) : Reads buffer r :=
  Outcome.mono h fun _ h => h.trans hle

theorem WhenOk.mono {α : Type} {Q Q' : α → Prop} {r : Except LoadError α} (h : WhenOk Q r)
    (hQ : ∀ a, Q a → Q' a) : WhenOk Q' r := by
  cases r with
  | error e => trivial
  | ok a => exact hQ a h

/-! ### Reading from the buffer -/

theorem readUintAndAdvance_eq_some {width : Nat} {buffer rest : SafeBuffer} {v : Nat}
    (h : readUintAndAdvance width buffer = some (v, rest)) :
    v = (ByteMemory.ofList buffer).loadLE 0 width ∧ rest = buffer.drop width ∧
      width ≤ buffer.length := by
  unfold readUintAndAdvance at h
  split_ifs at h with hw
  simp only [Option.some.injEq, Prod.mk.injEq] at h
  exact ⟨h.1.symm, h.2.symm, Nat.le_of_not_lt hw⟩

theorem readUintAndAdvance_suffix {width : Nat} {buffer rest : SafeBuffer} {v : Nat}
    (h : readUintAndAdvance width buffer = some (v, rest)) : List.IsSuffix rest buffer := by
  rw [(readUintAndAdvance_eq_some h).2.1]
  exact List.drop_suffix _ _

theorem length_of_readUintAndAdvance {width : Nat} {buffer rest : SafeBuffer} {v : Nat}
    (h : readUintAndAdvance width buffer = some (v, rest)) : rest.length + width = buffer.length := by
  obtain ⟨-, rfl, hw⟩ := readUintAndAdvance_eq_some h
  rw [List.length_drop]
  omega

theorem reads_advance {dataSize : Nat} {buffer : SafeBuffer} (h : dataSize ≤ buffer.length) :
    advance dataSize buffer = .ok (buffer.drop dataSize) := by
  simp [advance, Nat.not_lt.mpr h]

/-! ### Type indexes -/

section TypeIndexes

variable {α : Type} (errors : TypeIndexErrors) (numTypeIds : Nat) (extraDescriptorsRemap : List Nat)
  (add : α → Nat → α)

/-- A difference that passes the check lands below `num_valid_type_indexes`, whatever index it
starts from. -/
theorem lt_numValidTypeIndexes_of_not_le {typeIndex typeIndexDiff : Nat}
    (h : ¬(typeIndexDiff : Int) ≥
      (numValidTypeIndexes numTypeIds extraDescriptorsRemap : Int) - typeIndex) :
    typeIndex + typeIndexDiff < numValidTypeIndexes numTypeIds extraDescriptorsRemap := by
  omega

/-- Below `num_valid_type_indexes`, an index past the type ids has an extra descriptor. -/
theorem getElem?_remap_isSome {typeIndex : Nat}
    (h : typeIndex < numValidTypeIndexes numTypeIds extraDescriptorsRemap)
    (hge : numTypeIds ≤ typeIndex) :
    typeIndex - numTypeIds < extraDescriptorsRemap.length := by
  unfold numValidTypeIndexes at h
  omega

theorem reads_readTypeIndexes (count i typeIndex : Nat) (acc : α) (buffer : SafeBuffer) :
    Reads buffer (readTypeIndexes errors numTypeIds extraDescriptorsRemap add count i typeIndex acc
      buffer) := by
  induction count generalizing i typeIndex acc buffer with
  | zero => exact List.suffix_refl _
  | succ count ih =>
    rw [readTypeIndexes]
    cases hread : readUintAndAdvance 2 buffer with
    | none => trivial
    | some r =>
      obtain ⟨typeIndexDiff, rest⟩ := r
      have hlen := length_of_readUintAndAdvance hread
      have hrest := readUintAndAdvance_suffix hread
      dsimp only
      split_ifs with hdup hinvalid hge
      · trivial
      · trivial
      · -- past the type ids: the remap has an entry for it
        have hlt := lt_numValidTypeIndexes_of_not_le numTypeIds extraDescriptorsRemap hinvalid
        have hmod : (typeIndex + typeIndexDiff) % 2 ^ 16 = typeIndex + typeIndexDiff := by
          unfold numValidTypeIndexes kDexNoIndex16 at hlt
          exact Nat.mod_eq_of_lt (by omega)
        rw [hmod] at hge ⊢
        rw [List.getElem?_eq_getElem
          (getElem?_remap_isSome numTypeIds extraDescriptorsRemap hlt hge)]
        dsimp only
        split_ifs
        · trivial
        · exact (ih _ _ _ rest).mono hrest
      · exact (ih _ _ _ rest).mono hrest

end TypeIndexes

/-! ### Classes -/

theorem reads_readClasses (d : DexFileData) (buffer : SafeBuffer) (extraDescriptorsRemap : List Nat) :
    Reads buffer (readClasses d buffer extraDescriptorsRemap) := by
  unfold readClasses
  cases hread : readUintAndAdvance 2 buffer with
  | none => trivial
  | some r =>
    obtain ⟨classesSize, rest⟩ := r
    have hlen := length_of_readUintAndAdvance hread
    have h := reads_readTypeIndexes classTypeIndexErrors d.numTypeIds extraDescriptorsRemap
      (fun classSet typeIndex => SortedSet.insert typeIndex classSet) classesSize 0 0 d.classSet rest
    dsimp only
    split
    · rename_i e he
      rw [he] at h
      exact h
    · rename_i classSet rest' he
      rw [he] at h
      exact (show List.IsSuffix rest' rest from h).trans (readUintAndAdvance_suffix hread)

/-- `SkipClasses` steps over the `uint16_t` count and the indexes it counts, or fails with a status. -/
theorem skipClasses_spec (buffer : SafeBuffer) :
    Outcome (fun rest => rest = buffer.drop (2 + (ByteMemory.ofList buffer).loadLE 0 2 * 2)) (skipClasses buffer) := by
  unfold skipClasses
  cases hread : readUintAndAdvance 2 buffer with
  | none => trivial
  | some r =>
    obtain ⟨classesSize, rest⟩ := r
    obtain ⟨rfl, rfl, -⟩ := readUintAndAdvance_eq_some hread
    dsimp only
    split_ifs with hsize
    · trivial
    · rw [reads_advance (Nat.le_of_not_lt hsize), List.drop_drop]
      rfl

/-! ### Methods -/

theorem reads_readInlineCaches (numTypeIds : Nat) (extraDescriptorsRemap : List Nat) (count : Nat)
    (inlineCache : InlineCacheMap) (buffer : SafeBuffer) :
    Reads buffer (readInlineCaches numTypeIds extraDescriptorsRemap count inlineCache buffer) := by
  induction count generalizing inlineCache buffer with
  | zero => exact List.suffix_refl _
  | succ count ih =>
    rw [readInlineCaches]
    cases hpc : readUintAndAdvance 2 buffer with
    | none => trivial
    | some r =>
      obtain ⟨dexPc, rest⟩ := r
      have hlen := length_of_readUintAndAdvance hpc
      dsimp only
      cases hsize : readUintAndAdvance 1 rest with
      | none => trivial
      | some r =>
        obtain ⟨inlineCacheClassesSize, rest'⟩ := r
        have hlen' := length_of_readUintAndAdvance hsize
        dsimp only
        -- the classes of the cache: a special encoding, or that many type indexes
        have hread : Reads rest' (if inlineCacheClassesSize = kIsMissingTypesEncoding then
            .ok (((inlineCache.lookup dexPc).getD DexPcData.empty).setIsMissingTypes, rest')
          else if inlineCacheClassesSize = kIsMegamorphicEncoding then
            .ok (((inlineCache.lookup dexPc).getD DexPcData.empty).setIsMegamorphic, rest')
          else if inlineCacheClassesSize ≥ kIndividualInlineCacheSize then
            fail .kBadData "Inline cache size too large."
          else
            readTypeIndexes inlineCacheTypeIndexErrors numTypeIds extraDescriptorsRemap
              DexPcData.addClass inlineCacheClassesSize 0 0
              ((inlineCache.lookup dexPc).getD DexPcData.empty) rest' :
              Except LoadError (DexPcData × SafeBuffer)) := by
          split_ifs
          · exact List.suffix_refl _
          · exact List.suffix_refl _
          · trivial
          · exact reads_readTypeIndexes _ _ _ _ _ _ _ _ _
        split
        · rename_i e he
          rw [he] at hread
          exact hread
        · rename_i dexPcData rest'' he
          rw [he] at hread
          exact (ih _ rest'').mono ((show List.IsSuffix rest'' rest' from hread).trans
            ((readUintAndAdvance_suffix hsize).trans (readUintAndAdvance_suffix hpc)))

/-! ### The saved bitmaps -/

/-- The position of the last bitmap flag of a profile's kind. -/
def lastFlagLog2 (isForBootImage : Bool) : Nat := if isForBootImage then 15 else 2

theorem log2_lastFlag (isForBootImage : Bool) :
    Nat.log2 (if isForBootImage then kFlagLastBoot else kFlagLastRegular) =
      lastFlagLog2 isForBootImage := by
  cases isForBootImage
  · show Nat.log2 (2 ^ 2) = 2
    exact Nat.log2_two_pow
  · show Nat.log2 (2 ^ 15) = 15
    exact Nat.log2_two_pow

theorem forMethodBitmapHotnessFlags_eq (isForBootImage : Bool) :
    DexFileData.forMethodBitmapHotnessFlags isForBootImage =
      ((List.range (lastFlagLog2 isForBootImage + 1)).map (2 ^ ·)).filter (· ≠ 1) := by
  unfold DexFileData.forMethodBitmapHotnessFlags
  dsimp only
  rw [log2_lastFlag]
  simp only [Nat.one_shiftLeft, kFlagHot]

theorem computeBitmapBits_eq (isForBootImage : Bool) (n : Nat) :
    DexFileData.computeBitmapBits isForBootImage n = n * lastFlagLog2 isForBootImage := by
  unfold DexFileData.computeBitmapBits DexFileData.flagBitmapIndex
  dsimp only
  rw [log2_lastFlag]
  cases isForBootImage <;> rfl

/-- The bitmap of every flag the loop visits lies inside `method_bitmap`. -/
theorem flagBitmap_le_computeBitmapBits (isForBootImage : Bool) (n : Nat) {flag : Nat}
    (hflag : flag ∈ DexFileData.forMethodBitmapHotnessFlags isForBootImage) :
    DexFileData.flagBitmapIndex flag * n + n ≤ DexFileData.computeBitmapBits isForBootImage n := by
  rw [forMethodBitmapHotnessFlags_eq] at hflag
  simp only [List.mem_filter, List.mem_map, List.mem_range] at hflag
  obtain ⟨⟨i, hi, rfl⟩, hne⟩ := hflag
  have hpos : i ≠ 0 := by
    rintro rfl
    simp at hne
  rw [computeBitmapBits_eq, DexFileData.flagBitmapIndex, Nat.log2_two_pow]
  calc (i - 1) * n + n = i * n := by
        rw [← Nat.succ_mul, Nat.succ_eq_add_one, Nat.sub_add_cancel (Nat.pos_of_ne_zero hpos)]
    _ ≤ lastFlagLog2 isForBootImage * n := Nat.mul_le_mul_right _ (by omega)
    _ = n * lastFlagLog2 isForBootImage := Nat.mul_comm _ _

/-- The flags the loop finds set are no more than the bits of `method_flags & ~kFlagHot`. -/
theorem countP_flags_le_cpop (isForBootImage : Bool) (methodFlags : Nat) :
    (DexFileData.forMethodBitmapHotnessFlags isForBootImage).countP
        (fun flag => decide (methodFlags &&& flag ≠ 0)) ≤
      (BitVec.ofNat 32 methodFlags &&& ~~~(BitVec.ofNat 32 kFlagHot)).cpop.toNat := by
  rw [forMethodBitmapHotnessFlags_eq, List.countP_filter, List.countP_map,
    Art.BitVec.toNat_cpop_eq_countP]
  have hsub : List.Sublist (List.range (lastFlagLog2 isForBootImage + 1)) (List.range 32) :=
    List.range_sublist.mpr (by cases isForBootImage <;> decide)
  refine (hsub.countP_le).trans (List.countP_mono_left fun i hi h => ?_)
  simp only [Function.comp_apply, Bool.and_eq_true, decide_eq_true_eq, ne_eq] at h
  obtain ⟨hset, hne⟩ := h
  have hi0 : i ≠ 0 := by
    rintro rfl
    exact hne rfl
  have hbit : methodFlags.testBit i = true := by
    rw [Nat.and_two_pow] at hset
    cases hb : methodFlags.testBit i
    · simp [hb] at hset
    · rfl
  simp only [List.mem_range] at hi
  simp only [BitVec.getLsbD_and, BitVec.getLsbD_not, BitVec.getLsbD_ofNat, kFlagHot,
    Nat.one_shiftLeft, Nat.testBit_two_pow]
  simp [hi, hbit, Ne.symm hi0]

/-- The bitmap loop stays in bounds while the flags still to visit that are set, added to the
saved bitmaps already read, do not pass `P`, the number of saved bitmaps. -/
theorem checked_foldlM_orSavedBitmap (d : DexFileData) (methodFlags : Nat) (savedBitmap : SafeBuffer)
    (P : Nat) (flags : List Nat)
    (hflags : ∀ flag ∈ flags, DexFileData.flagBitmapIndex flag * d.numMethodIds + d.numMethodIds ≤
      DexFileData.computeBitmapBits d.isForBootImage d.numMethodIds)
    (acc : List Nat × Nat)
    (hcount : acc.2 + flags.countP (fun flag => decide (methodFlags &&& flag ≠ 0)) ≤ P) :
    Checked (flags.foldlM (orSavedBitmap d methodFlags savedBitmap (P * d.numMethodIds)) acc) := by
  induction flags generalizing acc with
  | nil => trivial
  | cons flag flags ih =>
    have hrest : ∀ flag ∈ flags, DexFileData.flagBitmapIndex flag * d.numMethodIds +
        d.numMethodIds ≤ DexFileData.computeBitmapBits d.isForBootImage d.numMethodIds :=
      fun f hf => hflags f (List.mem_cons_of_mem _ hf)
    rw [List.foldlM_cons]
    by_cases hset : methodFlags &&& flag ≠ 0
    · -- a saved bitmap is read: it is one of the `P`
      rw [List.countP_cons_of_pos (by simpa using hset)] at hcount
      have hsaved : acc.2 * d.numMethodIds + d.numMethodIds ≤ P * d.numMethodIds := by
        rw [← Nat.succ_mul]
        exact Nat.mul_le_mul_right _ (by omega)
      have hbits := hflags flag List.mem_cons_self
      simp only [orSavedBitmap, orBits, if_pos hset, if_neg (Nat.not_lt.mpr hsaved),
        if_neg (Nat.not_lt.mpr hbits)]
      exact ih hrest _ (by dsimp only; omega)
    · rw [List.countP_cons_of_neg (by simpa using hset)] at hcount
      simp only [orSavedBitmap, if_neg hset]
      exact ih hrest _ hcount

theorem checked_orSavedBitmaps (d : DexFileData) (methodFlags : Nat) (savedBitmap : SafeBuffer) :
    Checked (orSavedBitmaps d methodFlags savedBitmap
      ((BitVec.ofNat 32 methodFlags &&& ~~~(BitVec.ofNat 32 kFlagHot)).cpop.toNat *
        d.numMethodIds)) := by
  have h := checked_foldlM_orSavedBitmap d methodFlags savedBitmap _
    (DexFileData.forMethodBitmapHotnessFlags d.isForBootImage)
    (fun _ hf => flagBitmap_le_computeBitmapBits _ _ hf) (d.bitmapStorage, 0)
    (by simpa using countP_flags_le_cpop d.isForBootImage methodFlags)
  unfold orSavedBitmaps
  split
  · rename_i e he
    rw [he] at h
    exact h
  · trivial

/-- `num_valid_method_indexes`. -/
theorem numValidMethodIndexes_le (d : DexFileData) :
    min (kMaxSupportedMethodIndex + 1) d.numMethodIds ≤ 2 ^ 16 := by
  unfold kMaxSupportedMethodIndex
  omega

/-- The hot method loop stays in bounds as long as the method index has not passed
`num_valid_method_indexes`, which each round keeps, and as long as its fuel covers the bytes
still to read before the expected end. -/
theorem reads_readHotMethods (extraDescriptorsRemap : List Nat) (expectedEnd : Nat) (fuel : Nat)
    (methodIndex : Nat) (firstDiff : Bool) (d : DexFileData) (buffer : SafeBuffer)
    (hfuel : buffer.length ≤ fuel + expectedEnd)
    (hindex : methodIndex ≤ min (kMaxSupportedMethodIndex + 1) d.numMethodIds) :
    Reads buffer (readHotMethods extraDescriptorsRemap expectedEnd fuel methodIndex firstDiff d
      buffer) := by
  induction fuel generalizing methodIndex firstDiff d buffer with
  | zero =>
    rw [readHotMethods, if_neg (by omega)]
    exact List.suffix_refl _
  | succ fuel ih =>
    rw [readHotMethods]
    split_ifs with hmore
    · cases hdiff : readUintAndAdvance 2 buffer with
      | none => trivial
      | some r =>
        obtain ⟨diff, rest⟩ := r
        have hlen := length_of_readUintAndAdvance hdiff
        have hwrap : u32I ((min (kMaxSupportedMethodIndex + 1) d.numMethodIds : Nat) - methodIndex
            : Int) = min (kMaxSupportedMethodIndex + 1) d.numMethodIds - methodIndex := by
          have := numValidMethodIndexes_le d
          rw [u32I_of_lt (by omega) (by omega)]
          omega
        dsimp only
        rw [hwrap]
        split_ifs with hdup hinvalid hrange
        · trivial
        · trivial
        · -- the check keeps the index below `num_valid_method_indexes`
          have := numValidMethodIndexes_le d
          rw [Nat.mod_eq_of_lt (by omega)] at hrange
          omega
        · have hmod : (methodIndex + diff) % 2 ^ 16 = methodIndex + diff := by
            have := numValidMethodIndexes_le d
            exact Nat.mod_eq_of_lt (by omega)
          cases hsize : readUintAndAdvance 2 rest with
          | none => trivial
          | some r =>
            obtain ⟨inlineCacheSize, rest'⟩ := r
            have hlen' := length_of_readUintAndAdvance hsize
            have hcaches := reads_readInlineCaches d.numTypeIds extraDescriptorsRemap inlineCacheSize
              ((d.methodMap.lookup ((methodIndex + diff) % 2 ^ 16)).getD []) rest'
            dsimp only
            split
            · rename_i e he
              rw [he] at hcaches
              exact hcaches
            · rename_i inlineCache rest'' he
              rw [he] at hcaches
              have hsuffix : List.IsSuffix rest'' buffer :=
                (show List.IsSuffix rest'' rest' from hcaches).trans
                  ((readUintAndAdvance_suffix hsize).trans (readUintAndAdvance_suffix hdiff))
              have hshort := (show List.IsSuffix rest'' rest' from hcaches).length_le
              refine (ih _ _ _ rest'' (by omega) ?_).mono hsuffix
              dsimp only
              rw [hmod]
              omega
    · exact List.suffix_refl _

theorem reads_readMethods (d : DexFileData) (buffer : SafeBuffer) (extraDescriptorsRemap : List Nat) :
    Reads buffer (readMethods d buffer extraDescriptorsRemap) := by
  unfold readMethods
  cases hsize : readUintAndAdvance 4 buffer with
  | none => trivial
  | some r =>
    obtain ⟨followingDataSize, rest⟩ := r
    have hlen := length_of_readUintAndAdvance hsize
    dsimp only
    split_ifs with hbig
    · trivial
    cases hflags : readUintAndAdvance 2 rest with
    | none => trivial
    | some r =>
      obtain ⟨methodFlags, rest'⟩ := r
      have hlen' := length_of_readUintAndAdvance hflags
      have hbitmaps := checked_orSavedBitmaps d methodFlags rest'
      dsimp only
      generalize (BitVec.ofNat 32 methodFlags &&& ~~~(BitVec.ofNat 32 kFlagHot)).cpop.toNat = P
        at hbitmaps ⊢
      generalize bitsToBytesRoundUp (P * d.numMethodIds) = savedBitmapByteSize
      by_cases hboot : (!d.isForBootImage) = true ∧ methodFlags ≥ kFlagLastRegular <<< 1
      · rw [if_pos hboot]
        trivial
      by_cases hbitmap : 2 + savedBitmapByteSize > followingDataSize
      · rw [if_neg hboot, if_pos hbitmap]
        trivial
      -- the saved bitmaps fit in what the size announced
      rw [if_neg hboot, if_neg hbitmap, if_neg (by omega)]
      split
      · rename_i e he
        rw [he] at hbitmaps
        exact hbitmaps
      rename_i d' _
      rw [reads_advance (by omega)]
      dsimp only
      have hhot : Reads (rest'.drop savedBitmapByteSize) (if methodFlags &&& kFlagHot ≠ 0 then
          readHotMethods extraDescriptorsRemap (rest.length - followingDataSize)
            (rest'.drop savedBitmapByteSize).length 0 true d' (rest'.drop savedBitmapByteSize)
        else .ok (d', rest'.drop savedBitmapByteSize)) := by
        split_ifs
        · exact reads_readHotMethods _ _ _ _ _ _ _ (by omega) (Nat.zero_le _)
        · exact List.suffix_refl _
      split
      · rename_i e he
        rw [he] at hhot
        exact hhot
      · rename_i d'' rest'' he
        rw [he] at hhot
        split_ifs
        · trivial
        · exact (show List.IsSuffix rest'' _ from hhot).trans ((List.drop_suffix _ _).trans
            ((readUintAndAdvance_suffix hflags).trans (readUintAndAdvance_suffix hsize)))

/-- The hot methods loop adds only methods below `min(num_method_ids, kMaxSupportedMethodIndex + 1)`:
an index is a `uint16_t`, and `FindOrAddHotMethod` is only reached below `num_method_ids`. -/
theorem readHotMethods_keys (extraDescriptorsRemap : List Nat) (expectedEnd : Nat) (fuel : Nat)
    (methodIndex : Nat) (firstDiff : Bool) (d : DexFileData) (buffer : SafeBuffer) :
    WhenOk (fun r : DexFileData × SafeBuffer => r.1.numMethodIds = d.numMethodIds ∧
      ∀ k ∈ r.1.methodMap.map Prod.fst,
        k ∈ d.methodMap.map Prod.fst ∨ k < min (kMaxSupportedMethodIndex + 1) d.numMethodIds)
      (readHotMethods extraDescriptorsRemap expectedEnd fuel methodIndex firstDiff d buffer) := by
  induction fuel generalizing methodIndex firstDiff d buffer with
  | zero =>
    rw [readHotMethods]
    split_ifs
    · trivial
    · exact ⟨rfl, fun k hk => .inl hk⟩
  | succ fuel ih =>
    rw [readHotMethods]
    split_ifs with hmore
    · cases hdiff : readUintAndAdvance 2 buffer with
      | none => trivial
      | some r =>
        obtain ⟨diff, b1⟩ := r
        dsimp only
        split_ifs with hdup hinvalid hrange
        · trivial
        · trivial
        · trivial
        cases hsize : readUintAndAdvance 2 b1 with
        | none => trivial
        | some r =>
          obtain ⟨inlineCacheSize, b2⟩ := r
          dsimp only
          split
          · trivial
          rename_i inlineCache b3 _
          refine WhenOk.mono (ih _ _ _ b3) fun r hr => ⟨hr.1, fun k hk => ?_⟩
          -- the method of this round is a `uint16_t` below `num_method_ids`
          rcases hr.2 k hk with hk | hk
          · rcases SortedMap.mem_keys_insert.mp hk with rfl | hk
            · have := Nat.mod_lt (methodIndex + diff) (Nat.two_pow_pos 16)
              unfold kMaxSupportedMethodIndex
              right
              omega
            · exact .inl hk
          · exact .inr hk
    · exact ⟨rfl, fun k hk => .inl hk⟩

theorem orSavedBitmaps_methodMap (d : DexFileData) (methodFlags : Nat) (savedBitmap : SafeBuffer)
    (savedBitmapBitSize : Nat) :
    WhenOk (fun d' => d'.methodMap = d.methodMap ∧ d'.numMethodIds = d.numMethodIds)
      (orSavedBitmaps d methodFlags savedBitmap savedBitmapBitSize) := by
  unfold orSavedBitmaps
  split
  · trivial
  · exact ⟨rfl, rfl⟩

/-- `ReadMethods` consumes the `uint32_t` size and exactly the bytes it announces, and the hot
methods it adds are below `min(num_method_ids, kMaxSupportedMethodIndex + 1)`. -/
theorem readMethods_whenOk (d : DexFileData) (buffer : SafeBuffer) (extraDescriptorsRemap : List Nat) :
    WhenOk (fun r : DexFileData × SafeBuffer =>
      r.2 = buffer.drop (4 + (ByteMemory.ofList buffer).loadLE 0 4) ∧
        ∀ k ∈ r.1.methodMap.map Prod.fst,
          k ∈ d.methodMap.map Prod.fst ∨ k < min (kMaxSupportedMethodIndex + 1) d.numMethodIds)
      (readMethods d buffer extraDescriptorsRemap) := by
  have hreads := reads_readMethods d buffer extraDescriptorsRemap
  revert hreads
  unfold readMethods
  cases hsize : readUintAndAdvance 4 buffer with
  | none => exact fun _ => trivial
  | some r =>
    obtain ⟨followingDataSize, b1⟩ := r
    obtain ⟨rfl, rfl, h4⟩ := readUintAndAdvance_eq_some hsize
    dsimp only
    split_ifs with hbig
    · exact fun _ => trivial
    cases hflags : readUintAndAdvance 2 (buffer.drop 4) with
    | none => exact fun _ => trivial
    | some r =>
      obtain ⟨methodFlags, b2⟩ := r
      dsimp only
      generalize (BitVec.ofNat 32 methodFlags &&& ~~~(BitVec.ofNat 32 kFlagHot)).cpop.toNat = P
      generalize bitsToBytesRoundUp (P * d.numMethodIds) = savedBitmapByteSize
      by_cases hboot : (!d.isForBootImage) = true ∧ methodFlags ≥ kFlagLastRegular <<< 1
      · rw [if_pos hboot]
        exact fun _ => trivial
      by_cases hbitmap : 2 + savedBitmapByteSize > (ByteMemory.ofList buffer).loadLE 0 4
      · rw [if_neg hboot, if_pos hbitmap]
        exact fun _ => trivial
      by_cases hregion : savedBitmapByteSize > b2.length
      · rw [if_neg hboot, if_neg hbitmap, if_pos hregion]
        exact fun _ => trivial
      rw [if_neg hboot, if_neg hbitmap, if_neg hregion]
      have hbitmaps := orSavedBitmaps_methodMap d methodFlags b2 (P * d.numMethodIds)
      split
      · exact fun _ => trivial
      rename_i d₁ hd₁
      rw [hd₁] at hbitmaps
      obtain ⟨hmap, hnum⟩ := hbitmaps
      split
      · exact fun _ => trivial
      rename_i b3 _
      have hhot : WhenOk (fun r : DexFileData × SafeBuffer => ∀ k ∈ r.1.methodMap.map Prod.fst,
          k ∈ d.methodMap.map Prod.fst ∨ k < min (kMaxSupportedMethodIndex + 1) d.numMethodIds)
          (if methodFlags &&& kFlagHot ≠ 0 then
            readHotMethods extraDescriptorsRemap
              ((buffer.drop 4).length - (ByteMemory.ofList buffer).loadLE 0 4) b3.length 0 true d₁ b3
          else .ok (d₁, b3)) := by
        split_ifs
        · refine WhenOk.mono (readHotMethods_keys _ _ _ _ _ _ _) fun r hr k hk => ?_
          rw [← hnum, ← hmap]
          exact hr.2 k hk
        · exact fun k hk => .inl (hmap ▸ hk)
      split
      · exact fun _ => trivial
      rename_i d₂ b4 he
      rw [he] at hhot
      split_ifs with hend
      · exact fun _ => trivial
      intro hsuffix
      refine ⟨?_, hhot⟩
      rw [List.suffix_iff_eq_drop.mp hsuffix]
      rw [List.length_drop] at hbig hend
      rw [not_not] at hend
      rw [hend]
      congr 1
      omega

/-- `SkipMethods` steps over the `uint32_t` size and the bytes it counts, or fails with a status. -/
theorem skipMethods_spec (buffer : SafeBuffer) :
    Outcome (fun rest => rest = buffer.drop (4 + (ByteMemory.ofList buffer).loadLE 0 4)) (skipMethods buffer) := by
  unfold skipMethods
  cases hread : readUintAndAdvance 4 buffer with
  | none => trivial
  | some r =>
    obtain ⟨followingDataSize, rest⟩ := r
    obtain ⟨rfl, rfl, -⟩ := readUintAndAdvance_eq_some hread
    dsimp only
    split_ifs with hsize
    · trivial
    · rw [reads_advance (Nat.le_of_not_lt hsize), List.drop_drop]
      rfl

/-! ### Sections -/

/-- Every entry of `dex_profile_index_remap` is `MaxProfileIndex()` or a dex file of `info_`. -/
def RemapValid (dexProfileIndexRemap : List Nat) (p : ProfileCompilationInfo) : Prop :=
  ∀ x ∈ dexProfileIndexRemap, x = maxProfileIndex ∨ x < p.info.length

theorem RemapValid.mono {remap : List Nat} {p p' : ProfileCompilationInfo} (h : RemapValid remap p)
    (hle : p.info.length ≤ p'.info.length) : RemapValid remap p' := fun x hx =>
  (h x hx).imp_right fun hlt => Nat.lt_of_lt_of_le hlt hle

/-- A section reader failed with a status, or kept the dex files of the profile. -/
def KeepsDexFiles (p : ProfileCompilationInfo) (r : Except LoadError ProfileCompilationInfo) :
    Prop :=
  Outcome (fun p' => p'.info.length = p.info.length) r

/-- The record loop of the classes and methods sections stays in bounds when its readers do: a
record's profile index is checked against the remap, and what the remap gives is a dex file of
the profile; the fuel covers the buffer, which each record shortens. -/
theorem keepsDexFiles_readRecords (indexErrors : String × String)
    (read : DexFileData → SafeBuffer → List Nat → Except LoadError (DexFileData × SafeBuffer))
    (skip : SafeBuffer → Except LoadError SafeBuffer)
    (dexProfileIndexRemap extraDescriptorsRemap : List Nat)
    (hread : ∀ d buffer, Reads buffer (read d buffer extraDescriptorsRemap))
    (hskip : ∀ buffer, Outcome (fun rest => List.IsSuffix rest buffer) (skip buffer))
    (fuel : Nat) (p : ProfileCompilationInfo) (buffer : SafeBuffer) (hfuel : buffer.length ≤ fuel)
    (hremap : RemapValid dexProfileIndexRemap p) :
    KeepsDexFiles p (readRecords indexErrors read skip dexProfileIndexRemap extraDescriptorsRemap
      fuel p buffer) := by
  induction fuel generalizing p buffer with
  | zero =>
    rw [readRecords, if_neg (by omega)]
    rfl
  | succ fuel ih =>
    rw [readRecords]
    split_ifs with hne
    · cases hindex : readUintAndAdvance 2 buffer with
      | none => trivial
      | some r =>
        obtain ⟨profileIndex, rest⟩ := r
        have hlen := length_of_readUintAndAdvance hindex
        dsimp only
        split_ifs with hlt hmax
        · -- a dex file the filter dropped: the record is skipped
          have h := hskip rest
          split
          · rename_i e he
            rw [he] at h
            exact h
          · rename_i rest' he
            rw [he] at h
            exact ih p rest' (by have := (show List.IsSuffix rest' rest from h).length_le; omega)
              hremap
        · -- otherwise the remap names a dex file of the profile
          have hdex : dexProfileIndexRemap[profileIndex] < p.info.length :=
            (hremap _ (List.getElem_mem hlt)).resolve_left hmax
          rw [List.getElem?_eq_getElem hdex]
          dsimp only
          have h := hread p.info[dexProfileIndexRemap[profileIndex]] rest
          split
          · rename_i e he
            rw [he] at h
            exact h
          · rename_i d rest' he
            rw [he] at h
            have hkeep := ih { p with info := p.info.set dexProfileIndexRemap[profileIndex] d } rest'
              (by have := (show List.IsSuffix rest' rest from h).length_le; omega)
              (hremap.mono (by simp))
            exact Outcome.mono hkeep fun p' hp' => hp'.trans (List.length_set ..)
        · trivial
    · rfl

theorem keepsDexFiles_readClassesSection (p : ProfileCompilationInfo) (buffer : SafeBuffer)
    (dexProfileIndexRemap extraDescriptorsRemap : List Nat)
    (hremap : RemapValid dexProfileIndexRemap p) :
    KeepsDexFiles p (readClassesSection p buffer dexProfileIndexRemap extraDescriptorsRemap) :=
  keepsDexFiles_readRecords _ _ _ _ _ (reads_readClasses · · _)
    (fun buffer => (skipClasses_spec buffer).mono fun _ h => h ▸ List.drop_suffix _ _)
    _ p buffer (Nat.le_refl _) hremap

theorem keepsDexFiles_readMethodsSection (p : ProfileCompilationInfo) (buffer : SafeBuffer)
    (dexProfileIndexRemap extraDescriptorsRemap : List Nat)
    (hremap : RemapValid dexProfileIndexRemap p) :
    KeepsDexFiles p (readMethodsSection p buffer dexProfileIndexRemap extraDescriptorsRemap) :=
  keepsDexFiles_readRecords _ _ _ _ _ (reads_readMethods · · _)
    (fun buffer => (skipMethods_spec buffer).mono fun _ h => h ▸ List.drop_suffix _ _)
    _ p buffer (Nat.le_refl _) hremap

/-! ### The dex files and the extra descriptors -/

theorem checkDexFileData_eq_some {d : DexFileData} {profileIndex checksum numTypeIds numMethodIds x : Nat}
    (h : checkDexFileData d profileIndex checksum numTypeIds numMethodIds = some x) :
    x = profileIndex := by
  unfold checkDexFileData at h
  split_ifs at h
  exact (Option.some.inj h).symm

/-- `GetOrAddDexFileData` keeps the dex files it has, and the profile index it returns is one of
them. -/
theorem getOrAddDexFileData_grows (p : ProfileCompilationInfo) (profileKey : String)
    (checksum numTypeIds numMethodIds : Nat) :
    p.info.length ≤ (p.getOrAddDexFileData profileKey checksum numTypeIds numMethodIds).1.info.length ∧
      ∀ x, (p.getOrAddDexFileData profileKey checksum numTypeIds numMethodIds).2 = some x →
        x < (p.getOrAddDexFileData profileKey checksum numTypeIds numMethodIds).1.info.length := by
  unfold getOrAddDexFileData
  split
  · rename_i profileIndex _
    split
    · rename_i d hd
      refine ⟨Nat.le_refl _, fun x hx => ?_⟩
      rw [checkDexFileData_eq_some hx]
      exact (List.getElem?_eq_some_iff.mp hd).1
    · exact ⟨Nat.le_refl _, fun _ hx => nomatch hx⟩
  · split_ifs
    · exact ⟨Nat.le_refl _, fun _ hx => nomatch hx⟩
    · refine ⟨by simp, fun x hx => ?_⟩
      rw [checkDexFileData_eq_some hx]
      simp

/-- The dex file loop grows `dex_profile_index_remap` by valid entries only. -/
theorem readDexFiles_spec (filterFn : String → Nat → Bool) (count : Nat)
    (p : ProfileCompilationInfo) (remap : List Nat) (buffer : SafeBuffer)
    (hremap : RemapValid remap p) :
    Outcome (fun r => RemapValid r.1.2 r.1.1 ∧ p.info.length ≤ r.1.1.info.length)
      (readDexFiles filterFn count (p, remap) buffer) := by
  induction count generalizing p remap buffer with
  | zero => exact ⟨hremap, Nat.le_refl _⟩
  | succ count ih =>
    rw [readDexFiles]
    cases h1 : readUintAndAdvance 4 buffer with
    | none => trivial
    | some r1 =>
    obtain ⟨checksum, b1⟩ := r1
    dsimp only
    cases h2 : readUintAndAdvance 4 b1 with
    | none => trivial
    | some r2 =>
    obtain ⟨numTypeIds, b2⟩ := r2
    dsimp only
    cases h3 : readUintAndAdvance 4 b2 with
    | none => trivial
    | some r3 =>
    obtain ⟨numMethodIds, b3⟩ := r3
    dsimp only
    cases h4 : readStringAndAdvance b3 with
    | none => trivial
    | some r4 =>
    obtain ⟨profileKeyView, b4⟩ := r4
    dsimp only
    split_ifs with hsize hfilter
    · trivial
    · -- a filtered dex file is remapped to `MaxProfileIndex()`
      refine ih p _ b4 fun x hx => ?_
      rcases List.mem_append.mp hx with hx | hx
      · exact hremap x hx
      · exact .inl (List.mem_singleton.mp hx)
    · obtain ⟨hgrow, hlt⟩ :=
        getOrAddDexFileData_grows p (bytesToString profileKeyView) checksum numTypeIds numMethodIds
      split
      · split_ifs
        · trivial
        · trivial
      · rename_i p' profileIndex heq
        rw [heq] at hgrow hlt
        refine (ih p' _ b4 fun x hx => ?_).mono fun r hr => ⟨hr.1, Nat.le_trans hgrow hr.2⟩
        rcases List.mem_append.mp hx with hx | hx
        · exact (hremap x hx).imp_right fun h => Nat.lt_of_lt_of_le h hgrow
        · exact .inr (List.mem_singleton.mp hx ▸ hlt profileIndex rfl)

theorem readDexFilesSection_spec (p : ProfileCompilationInfo) (buffer : SafeBuffer)
    (filterFn : String → Nat → Bool) :
    Outcome (fun r => RemapValid r.2 r.1) (readDexFilesSection p buffer filterFn) := by
  unfold readDexFilesSection
  cases h : readUintAndAdvance 2 buffer with
  | none => trivial
  | some r =>
    dsimp only
    split_ifs
    · trivial
    · have hloop := readDexFiles_spec filterFn r.1 p [] r.2 (fun _ hx => nomatch hx)
      split
      · rename_i e he
        rw [he] at hloop
        exact hloop
      · rename_i acc rest he
        rw [he] at hloop
        split_ifs
        · trivial
        · exact hloop.1

theorem info_addExtraDescriptor (p : ProfileCompilationInfo) (extraDescriptor : String) :
    (p.addExtraDescriptor extraDescriptor).1.info = p.info := by
  unfold addExtraDescriptor
  dsimp only
  split_ifs <;> rfl

/-- The extra descriptors loop fails with a status or succeeds, and leaves the dex files alone. -/
theorem readExtraDescriptors_spec (count : Nat) (p : ProfileCompilationInfo) (remap : List Nat)
    (buffer : SafeBuffer) :
    Outcome (fun r => r.1.info = p.info) (readExtraDescriptors count (p, remap) buffer) := by
  induction count generalizing p remap buffer with
  | zero => rfl
  | succ count ih =>
    rw [readExtraDescriptors]
    cases h : readStringAndAdvance buffer with
    | none => trivial
    | some r =>
      dsimp only
      split
      · trivial
      · split
        · exact ih p _ _
        · split
          · trivial
          · exact (ih _ _ _).mono fun _ hr => hr.trans (info_addExtraDescriptor _ _)

theorem readExtraDescriptorsSection_spec (p : ProfileCompilationInfo) (buffer : SafeBuffer)
    (remap : List Nat) :
    Outcome (fun r => r.1.info = p.info) (readExtraDescriptorsSection p buffer remap) := by
  unfold readExtraDescriptorsSection
  cases h : readUintAndAdvance 2 buffer with
  | none => trivial
  | some r => exact readExtraDescriptors_spec _ _ _ _

/-! ### The file -/

theorem checked_read (source : ProfileSource) (byteCount : Nat) : Checked (source.read byteCount) := by
  unfold ProfileSource.read
  split_ifs <;> trivial

theorem checked_readSectionData (source : ProfileSource)
    (inflate : List (BitVec 8) → Nat → Option (List (BitVec 8))) (sectionInfo : FileSectionInfo) :
    Checked (readSectionData source inflate sectionInfo) := by
  unfold readSectionData
  split
  · trivial
  · rename_i source' _
    have h := checked_read source' sectionInfo.fileSize
    split
    · rename_i e he
      rw [he] at h
      exact h
    · split_ifs
      · split <;> trivial
      · trivial

/-- A section that reads into the dex files after its buffer was read: it fails with a status or
keeps the dex files, so the remap stays valid for what follows. -/
theorem outcome_readSectionData_then (source : ProfileSource)
    (inflate : List (BitVec 8) → Nat → Option (List (BitVec 8))) (sectionInfo : FileSectionInfo)
    (p : ProfileCompilationInfo) (dexProfileIndexRemap extraDescriptorsRemap : List Nat)
    (read : SafeBuffer → Except LoadError ProfileCompilationInfo)
    (hread : ∀ buffer, KeepsDexFiles p (read buffer)) (hremap : RemapValid dexProfileIndexRemap p) :
    Outcome (fun acc : ProfileCompilationInfo × List Nat => RemapValid dexProfileIndexRemap acc.1)
      (match readSectionData source inflate sectionInfo with
        | .error e => .error e
        | .ok buffer =>
          match read buffer with
          | .error e => .error e
          | .ok p => .ok (p, extraDescriptorsRemap)) := by
  have hdata := checked_readSectionData source inflate sectionInfo
  split
  · rename_i e he
    rw [he] at hdata
    exact hdata
  · rename_i buffer _
    have h := hread buffer
    split
    · rename_i e he
      rw [he] at h
      exact h
    · rename_i p' he
      rw [he] at h
      exact hremap.mono (Nat.le_of_eq h.symm)

/-- One section fails with a status or leaves a profile for which the remap is still valid: the
extra descriptors leave the dex files alone, and the classes and methods sections keep their
number. -/
theorem outcome_readSection (source : ProfileSource)
    (inflate : List (BitVec 8) → Nat → Option (List (BitVec 8))) (mergeClasses : Bool)
    (dexProfileIndexRemap : List Nat) (sectionInfo : FileSectionInfo)
    (p : ProfileCompilationInfo) (extraDescriptorsRemap : List Nat)
    (hremap : RemapValid dexProfileIndexRemap p) :
    Outcome (fun acc : ProfileCompilationInfo × List Nat => RemapValid dexProfileIndexRemap acc.1)
      (readSection source inflate mergeClasses dexProfileIndexRemap sectionInfo
        (p, extraDescriptorsRemap)) := by
  unfold readSection
  dsimp only
  split_ifs
  · trivial
  · have hdata := checked_readSectionData source inflate sectionInfo
    split
    · rename_i e he
      rw [he] at hdata
      exact hdata
    · exact (readExtraDescriptorsSection_spec _ _ _).mono fun acc h =>
        hremap.mono (Nat.le_of_eq (congrArg List.length h).symm)
  · exact outcome_readSectionData_then _ _ _ _ _ _ _
      (keepsDexFiles_readClassesSection p · _ _ hremap) hremap
  · exact hremap
  · exact outcome_readSectionData_then _ _ _ _ _ _ _
      (keepsDexFiles_readMethodsSection p · _ _ hremap) hremap
  · exact hremap
  · exact hremap

/-- The loop over the sections after the first stays in bounds from any profile for which the
remap is valid. -/
theorem checked_readSections (source : ProfileSource)
    (inflate : List (BitVec 8) → Nat → Option (List (BitVec 8))) (mergeClasses : Bool)
    (dexProfileIndexRemap : List Nat) (sectionInfos : List FileSectionInfo)
    (p : ProfileCompilationInfo) (extraDescriptorsRemap : List Nat)
    (hremap : RemapValid dexProfileIndexRemap p) :
    Checked (readSections source inflate mergeClasses dexProfileIndexRemap sectionInfos
      (p, extraDescriptorsRemap)) := by
  induction sectionInfos generalizing p extraDescriptorsRemap with
  | nil => trivial
  | cons sectionInfo sectionInfos ih =>
    rw [readSections]
    have hstatus := outcome_readSection source inflate mergeClasses dexProfileIndexRemap
      sectionInfo p extraDescriptorsRemap hremap
    split
    · rename_i e he
      rw [he] at hstatus
      exact hstatus
    · rename_i acc he
      rw [he] at hstatus
      exact ih acc.1 acc.2 hstatus

theorem checked_addMemSizes (uncompressedDataSize : Nat) (sectionInfos : List FileSectionInfo) :
    Checked (addMemSizes uncompressedDataSize sectionInfos) := by
  induction sectionInfos generalizing uncompressedDataSize with
  | nil => trivial
  | cons sectionInfo sectionInfos ih =>
    rw [addMemSizes]
    split_ifs
    · trivial
    · exact ih _

theorem checked_invalidHeaderMessage {α : Type} (magic version : List (BitVec 8))
    (fileSectionCount : Nat) : Checked (invalidHeaderMessage magic version fileSectionCount :
      Except LoadError α) := by
  unfold invalidHeaderMessage
  split_ifs <;> trivial

/-- `LoadInternal` ends with the profile or one of its statuses, whatever the file holds and
whatever inflation returns. -/
theorem checked_loadInternal (p : ProfileCompilationInfo) (bytes : List (BitVec 8))
    (inflate : List (BitVec 8) → Nat → Option (List (BitVec 8))) (mergeClasses : Bool)
    (filterFn : String → Nat → Bool) :
    Checked (loadInternal p bytes inflate mergeClasses filterFn) := by
  unfold loadInternal
  by_cases hempty : bytes = []
  · rw [if_pos hempty]
    trivial
  rw [if_neg hempty]
  dsimp only
  have hheader := checked_read ⟨bytes, 0⟩ fileHeaderSize
  split
  · rename_i e he
    rw [he] at hheader
    exact hheader
  rename_i header source _
  generalize (if p.forBootImage then kProfileVersionForBootImage else kProfileVersion) =
    expectedVersion
  generalize (if p.forBootImage then "Expected boot profile, got app profile."
    else "Expected app profile, got boot profile.") = versionError
  split_ifs with hinvalid hversion hsize
  · exact checked_invalidHeaderMessage _ _ _
  · trivial
  · trivial
  have hcount : (ByteMemory.ofList header).loadLE 8 4 ≠ 0 := by
    simp only [Bool.not_eq_true', decide_eq_false_iff_not, not_not] at hinvalid
    exact hinvalid.2.2.1
  have htable := checked_read source ((ByteMemory.ofList header).loadLE 8 4 * fileSectionInfoSize)
  split
  · rename_i e he
    rw [he] at htable
    exact htable
  rename_i table source' _
  have hsizes := checked_addMemSizes (fileHeaderSize + (ByteMemory.ofList header).loadLE 8 4 *
    fileSectionInfoSize) ((List.range ((ByteMemory.ofList header).loadLE 8 4)).map fun i =>
      parseSectionInfo ((table.drop (fileSectionInfoSize * i)).take fileSectionInfoSize))
  split
  · rename_i e he
    rw [he] at hsizes
    exact hsizes
  split_ifs
  · trivial
  split
  · rename_i hnil
    simp only [List.map_eq_nil_iff, List.range_eq_nil] at hnil
    exact absurd hnil hcount
  rename_i dexFilesSectionInfo sectionInfos _
  split_ifs
  · trivial
  have hdata := checked_readSectionData source' inflate dexFilesSectionInfo
  split
  · rename_i e he
    rw [he] at hdata
    exact hdata
  rename_i buffer _
  have hdex := readDexFilesSection_spec p buffer filterFn
  split
  · rename_i e he
    rw [he] at hdex
    exact hdex
  rename_i p' dexProfileIndexRemap he
  rw [he] at hdex
  have hsections := checked_readSections source' inflate mergeClasses dexProfileIndexRemap
    sectionInfos p' [] hdex
  split
  · rename_i e he
    rw [he] at hsections
    exact hsections
  · trivial

end ProfileCompilationInfo

end Art
