import Art.Compiler.StackMapStream

/-!
# A stack map without vreg info misreads an inlined frame's registers

`BeginStackMapEntry` with `needs_vreg_info = false` expects no register of the method, so an
inlined frame's registers are counted from `0`: its inline info stores the count `1` for one
register.  The reader counts them from `number_of_dex_registers_` all the same:
`GetDexRegisterMapOf` decodes a map of the method's size from register `0`, where the inlined
register is, and `GetInlineDexRegisterMapOf` asks for `1 - 2` registers in `uint32_t`.  Every
`DCHECK` of the stream passes on such calls.
-/

namespace Art

open StackMapStream

/-- A stack map without vreg info, with one inlined frame holding one register, in a method of
two registers. -/
def inlineRegisterWithoutVregInfo : List StackMapCall :=
  [.beginStackMapEntry 0 0 0 none .default false,
    .beginInlineInfoEntry (.dexMethod 5) 3 1,
    .addDexRegisterEntry DexRegisterLocation.kConstant 7,
    .endInlineInfoEntry,
    .endStackMapEntry]

/-- The stream accepts the calls, and the decoded stack map reports two registers of the method,
the first being the inlined frame's, where one register was added in all. -/
theorem stack_map_inline_registers_misread :
    ∃ bits, encodeStackMaps .arm64 16 0 0 2 false inlineRegisterWithoutVregInfo 4 = some bits ∧
      (CodeInfo.decode bits 0).1.getInlineInfosOf 0 = [0] ∧
      (CodeInfo.decode bits 0).1.getDexRegisterMapOf 0 =
        [⟨DexRegisterLocation.kConstant, 7⟩, DexRegisterLocation.none] ∧
      ∀ inlineMaps, (CodeInfo.decode bits 0).1.getDexRegisterMapOf 0 ++ inlineMaps ≠
        [⟨DexRegisterLocation.kConstant, 7⟩] := by
  have hrun : (encodeStackMaps .arm64 16 0 0 2 false inlineRegisterWithoutVregInfo 4).map
      (fun bits => ((CodeInfo.decode bits 0).1.getInlineInfosOf 0,
        (CodeInfo.decode bits 0).1.getDexRegisterMapOf 0)) =
      some ([0], [⟨DexRegisterLocation.kConstant, 7⟩, DexRegisterLocation.none]) := by
    decide +kernel
  obtain ⟨bits, hbits⟩ : ∃ bits,
      encodeStackMaps .arm64 16 0 0 2 false inlineRegisterWithoutVregInfo 4 = some bits := by
    cases h : encodeStackMaps .arm64 16 0 0 2 false inlineRegisterWithoutVregInfo 4 with
    | none => rw [h] at hrun; cases hrun
    | some bits => exact ⟨bits, rfl⟩
  rw [hbits, Option.map_some, Option.some.injEq, Prod.mk.injEq] at hrun
  obtain ⟨hinline, hmap⟩ := hrun
  refine ⟨bits, hbits, hinline, hmap, fun inlineMaps h => ?_⟩
  -- the method's map alone is longer than what was added
  have hlen := congrArg List.length h
  rw [hmap, List.length_append] at hlen
  simp only [List.length_cons, List.length_nil] at hlen
  omega

end Art
