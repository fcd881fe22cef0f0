import Art.Proofs.ProfileMerge

/-!
# `MergeWith` joins what two profiles record

`mergeWith_mergedKey` follows `MergeWith` through its three loops: every dex file of the other
profile is found or added here (`remapDexFiles_loop`), its extra descriptors are found or
appended (`remapExtraDescriptors_loop`), and it is merged into the dex file of its key
(`mergeDexFiles_loop`).  Key by key, the result is described by `MergedKey`, from which each
query of `Content` reads as the join of the two profiles' answers (`mergeWith_join`).  Since the
joins are a union, an or and a lattice join, merging two profiles in either order gives the same
answers (`mergeWith_right_comm`).
-/

namespace Art

namespace ProfileCompilationInfo

open DexFileData

/-- What `MergeWith` makes of the dex files of one key, in `a`, in `b` and in the result (`none`
where there is none): the result's, read over the extra descriptors `ex`, is `a`'s, read over
`exA`, joined with `b`'s, read over `exB`. -/
inductive MergedKey (ex exA exB : List String) :
    Option DexFileData → Option DexFileData → Option DexFileData → Prop
  | absent : MergedKey ex exA exB none none none
  | kept {d : DexFileData} (hc : d.classes ex = d.classes exA) (hm : d.methods ex = d.methods exA) :
      MergedKey ex exA exB (some d) none (some d)
  | merged {d od d' : DexFileData} (hc : d.classes ex = d.classes exA)
      (hm : d.methods ex = d.methods exA) (hkey : d.dexKey = od.dexKey)
      (hj : JoinOf ex exB d od d') : MergedKey ex exA exB (some d) (some od) (some d')
  | added {d od d' : DexFileData} (he : d.Empty) (hkey : d.dexKey = od.dexKey)
      (hj : JoinOf ex exB d od d') : MergedKey ex exA exB none (some od) (some d')

theorem DexFileData.JoinOf.dexKey {ex exB : List String} {d od d' : DexFileData} (hj : JoinOf ex exB d od d') :
    d'.dexKey = d.dexKey := by
  rw [hj.frame]
  rfl

theorem DexFileData.JoinOf.caches {ex exB : List String} {d od d' : DexFileData} (hj : JoinOf ex exB d od d')
    (m pc : Nat) : (d'.methods ex m).unbotD ⊥ pc =
      (d.methods ex m).unbotD ⊥ pc ⊔ (od.methods exB m).unbotD ⊥ pc := by
  rw [hj.methods, Pi.sup_apply, WithBot.unbotD_bot_sup, Pi.sup_apply]

namespace MergedKey

variable {ex exA exB : List String} {oa ob or : Option DexFileData}

/-- The two profiles agree on the checksum and the id counts of a dex file they share. -/
theorem dexKey_agree (h : MergedKey ex exA exB oa ob or) :
    ∀ x y, oa.map dexKey = some x → ob.map dexKey = some y → x = y := by
  intro x y hx hy
  cases h with
  | merged _ _ hkey _ =>
    simp only [Option.map_some, Option.some.injEq] at hx hy
    rw [← hx, ← hy, hkey]
  | absent | kept _ _ | added _ _ _ => cases hx <;> cases hy

theorem dexKey_eq (h : MergedKey ex exA exB oa ob or) :
    or.map dexKey = (oa.map dexKey).or (ob.map dexKey) := by
  cases h with
  | absent | kept _ _ => rfl
  | merged _ _ _ hj => simp [hj.dexKey]
  | added _ hkey hj => simp [hj.dexKey, hkey]

theorem classes_eq (h : MergedKey ex exA exB oa ob or) :
    (or.map (classes ex)).getD ∅ =
      (oa.map (classes exA)).getD ∅ ∪ (ob.map (classes exB)).getD ∅ := by
  cases h with
  | absent => rfl
  | kept hc _ => simp [hc]
  | merged hc _ _ hj => simp [hj.classes, hc]
  | added he _ hj => simp [hj.classes, he.classes]

theorem flags_eq (h : MergedKey ex exA exB oa ob or) (m : Nat) :
    (or.map fun d => (d.getHotnessInfo m).flags).getD 0 =
      (oa.map fun d => (d.getHotnessInfo m).flags).getD 0 |||
        (ob.map fun d => (d.getHotnessInfo m).flags).getD 0 := by
  cases h with
  | absent => simp
  | kept _ _ => simp
  | merged _ _ _ hj => simp [hj.flags]
  | added he _ hj => simp [hj.flags, he.flags]

theorem caches_eq (h : MergedKey ex exA exB oa ob or) (m pc : Nat) :
    (or.map fun d => (d.methods ex m).unbotD ⊥ pc).getD ⊥ =
      (oa.map fun d => (d.methods exA m).unbotD ⊥ pc).getD ⊥ ⊔
        (ob.map fun d => (d.methods exB m).unbotD ⊥ pc).getD ⊥ := by
  cases h with
  | absent => simp
  | kept _ hm => simp [hm]
  | merged _ hm _ hj => simp [hj.caches, hm]
  | added he _ hj => simp [hj.caches, he.methods]

end MergedKey

section MergeWith

variable {p p₁ a b r : ProfileCompilationInfo}

/-- A dex file keeps its key's place when dex files are appended. -/
theorem findDexData_of_extend (hp : p.WellFormed) (hp₁ : p₁.WellFormed) (hpre : p.info <+: p₁.info)
    {key : String} {d : DexFileData} (h : p.findDexData key = some d) :
    p₁.findDexData key = some d := by
  obtain ⟨hd, hk⟩ := (findDexData_eq_some_iff hp).mp h
  exact (findDexData_eq_some_iff hp₁).mpr ⟨hpre.subset hd, hk⟩

/-- The dex file that `IndexOf` points at is the dex file of its key. -/
theorem IndexOf.findDexData (hp : p.WellFormed) {i : Nat} {od : DexFileData}
    (h : IndexOf p i od) : ∃ d, p.findDexData od.profileKey = some d ∧ d.dexKey = od.dexKey := by
  obtain ⟨hi, hkey, hsum, hn, hm⟩ := h
  refine ⟨p.info[i], ?_, ?_⟩
  · rw [← hkey]
    exact KeyedList.find?_getElem hp.keys_nodup hi
  · simp only [dexKey, hsum, hn, hm]

/-- Key by key, what `MergeWith` makes of two well-formed profiles. -/
theorem mergeWith_mergedKey (ha : a.WellFormed) (hb : b.WellFormed) (hfit : b.TypeIdsFit)
    (h : a.mergeWith b true = .ok r) :
    r.WellFormed ∧ ∀ key, MergedKey r.extraDescriptors a.extraDescriptors b.extraDescriptors
      (a.findDexData key) (b.findDexData key) (r.findDexData key) := by
  unfold mergeWith at h
  split_ifs at h with hver hsum
  have hkind : a.forBootImage = b.forBootImage := by
    simpa [sameVersion] using hver
  obtain ⟨⟨p₁, dexRemap⟩, h₁, h⟩ := Except.bind_eq_ok.mp h
  obtain ⟨⟨p₂, extraRemap⟩, h₂, h₃⟩ := Except.bind_eq_ok.mp h
  dsimp only at h₂ h₃
  -- the first loop: the dex files of `b` get indices here 
  obtain ⟨hex₁, hkind₁, hpre₁, hnew₁, hwf₁, rs, hrs, hidx₁⟩ := remapDexFiles_loop ha h₁
  rw [List.nil_append] at hrs
  subst hrs
  -- the second loop: the extra descriptors of `b` get indices here
  obtain ⟨hinfo₂, hkind₂, hpre₂, hnodup₂, rs', hrs', hremap⟩ :=
    remapExtraDescriptors_loop (hex₁ ▸ ha.extraDescriptors_nodup) h₂
  rw [List.nil_append] at hrs'
  subst hrs'
  have hwf₂ : p₂.WellFormed := by
    refine ⟨?_, ?_, fun d hd => ?_, hnodup₂⟩
    · rw [hinfo₂]
      exact hwf₁.keys_nodup
    · rw [hinfo₂]
      exact hwf₁.profileIndex_eq
    · rw [hinfo₂] at hd
      rw [hkind₂]
      exact (hwf₁.dexFiles_wf d hd).mono hpre₂
  have hfind₂ : ∀ key, p₂.findDexData key = p₁.findDexData key := by
    intro key
    unfold findDexData
    rw [hinfo₂]
  -- the third loop merges the dex files of `b`
  have hidx : ∀ od ∈ b.info, IndexOf p₂ (dexRemap.getD od.profileIndex 0) od := by
    intro od hod
    obtain ⟨j, hj, rfl⟩ := List.getElem_of_mem hod
    rw [hb.profileIndex_eq j hj]
    exact IndexOf.of_extend (by rw [hinfo₂]) (hidx₁ j hj)
  have hwfb : ∀ od ∈ b.info, od.WellFormed b.extraDescriptors p₂.forBootImage := by
    intro od hod
    rw [hkind₂, hkind₁, hkind]
    exact hb.dexFiles_wf od hod
  unfold mergeDexFiles at h₃
  obtain ⟨hwf, hex, -, hrest, hjoin⟩ :=
    mergeDexFiles_loop hremap hwf₂ rfl rfl hb.keys_nodup hwfb hfit hidx h₃
  refine ⟨hwf, fun key => ?_⟩
  rw [hex]
  have hpre : a.extraDescriptors <+: p₂.extraDescriptors := hex₁ ▸ hpre₂
  -- a dex file of `a` is read the same way over the longer extra descriptors
  have hmono : ∀ d, a.findDexData key = some d →
      d.classes p₂.extraDescriptors = d.classes a.extraDescriptors ∧
        d.methods p₂.extraDescriptors = d.methods a.extraDescriptors := by
    intro d hd
    have hdwf := ha.dexFiles_wf d ((findDexData_eq_some_iff ha).mp hd).1
    exact ⟨classes_of_extend hpre hdwf, methods_of_extend hpre hdwf⟩
  cases hbk : b.findDexData key with
  | none =>
    have hkb := findDexData_eq_none_iff.mp hbk
    rw [hrest key hkb, hfind₂]
    cases hak : a.findDexData key with
    | some d =>
      rw [findDexData_of_extend ha hwf₁ hpre₁ hak]
      exact .kept (hmono d hak).1 (hmono d hak).2
    | none =>
      -- a key of neither profile has no dex file after the first loop either
      cases hpk : p₁.findDexData key with
      | none => exact .absent
      | some d =>
        obtain ⟨hd, rfl⟩ := (findDexData_eq_some_iff hwf₁).mp hpk
        rcases hnew₁ d hd with hd | ⟨⟨od, hod, hk⟩, -⟩
        · exact absurd (List.mem_map_of_mem hd) (findDexData_eq_none_iff.mp hak)
        · exact absurd (hk ▸ List.mem_map_of_mem hod) hkb
  | some od =>
    obtain ⟨hod, rfl⟩ := (findDexData_eq_some_iff hb).mp hbk
    obtain ⟨d, d', hd, hd', hj⟩ := hjoin od hod
    obtain ⟨d₀, hd₀, hkey⟩ := (hidx od hod).findDexData hwf₂
    rw [hd₀, Option.some.injEq] at hd
    subst hd
    rw [hd']
    rw [hfind₂] at hd₀
    cases hak : a.findDexData od.profileKey with
    | some d =>
      rw [findDexData_of_extend ha hwf₁ hpre₁ hak, Option.some.injEq] at hd₀
      subst hd₀
      exact .merged (hmono d hak).1 (hmono d hak).2 hkey hj
    | none =>
      -- the dex file of the key was added empty by the first loop
      obtain ⟨hd, -⟩ := (findDexData_eq_some_iff hwf₁).mp hd₀
      rcases hnew₁ d₀ hd with hd | ⟨-, he⟩
      · obtain ⟨-, hk⟩ := (findDexData_eq_some_iff hwf₁).mp hd₀
        exact absurd (hk ▸ List.mem_map_of_mem hd) (findDexData_eq_none_iff.mp hak)
      · exact .added he hkey hj

/-- `MergeWith` records the join of the two profiles. -/
theorem mergeWith_join (ha : a.WellFormed) (hb : b.WellFormed) (hfit : b.TypeIdsFit)
    (h : a.mergeWith b true = .ok r) : r.WellFormed ∧ RecordsJoin a b r := by
  obtain ⟨hwf, hkey⟩ := mergeWith_mergedKey ha hb hfit h
  exact ⟨hwf, fun key => (hkey key).dexKey_agree, fun key => (hkey key).dexKey_eq,
    fun key => (hkey key).classes_eq, fun key => (hkey key).flags_eq,
    fun key => (hkey key).caches_eq⟩

/-- Merging two profiles in either order records the same, where all four merges succeed; one
order can fail where the other does not, since the indices the extra descriptors get here
depend on it. -/
theorem mergeWith_right_comm {c ab abc ac acb : ProfileCompilationInfo} (ha : a.WellFormed)
    (hb : b.WellFormed) (hc : c.WellFormed) (hbfit : b.TypeIdsFit) (hcfit : c.TypeIdsFit)
    (hab : a.mergeWith b true = .ok ab) (habc : ab.mergeWith c true = .ok abc)
    (hac : a.mergeWith c true = .ok ac) (hacb : ac.mergeWith b true = .ok acb) :
    SameContent abc acb := by
  obtain ⟨hwab, jab⟩ := mergeWith_join ha hb hbfit hab
  obtain ⟨hwac, jac⟩ := mergeWith_join ha hc hcfit hac
  exact jab.right_comm (mergeWith_join hwab hc hcfit habc).2 jac
    (mergeWith_join hwac hb hbfit hacb).2

end MergeWith

/-- An app profile of one dex file with two classes. -/
def sampleProfile : ProfileCompilationInfo :=
  ⟨[{ DexFileData.create "base.apk" 7 0 10 4 false with classSet := [1, 3] }], [], false⟩

end ProfileCompilationInfo

end Art
