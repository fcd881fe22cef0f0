import Mathlib
import Art.Lib.Word

/-!
# Dex instructions: sizes and the safe instruction iterator

A code item's `insns` is a list of 16-bit code units.  The size of an instruction is read off
`kInstructionDescriptors` (one entry per opcode, built from `DEX_INSTRUCTION_LIST`), except for
`NOP`, whose first unit may be the signature of a packed-switch, sparse-switch or fill-array-data
payload (`SizeInCodeUnitsComplexOpcode`).  The payload sizes are computed in 32-bit unsigned
arithmetic, as in `dex_instruction.cc`.

`computeWidthsAndCountOps` is the first structural pass of the method verifier: it walks the code
item with a `SafeDexInstructionIterator` and marks the start of every instruction it reaches.
-/

namespace Art

open Word32

/-- `Instruction::Format`, in the order of the source enum. -/
inductive Format
  | k10x | k12x | k11n | k11x | k10t | k20t | k22x | k21t | k21s | k21h | k21c | k23x | k22b
  | k22t | k22s | k22c | k32x | k30t | k31t | k31i | k31c | k35c | k3rc | k45cc | k4rcc | k51l
  | kInvalidFormat
  deriving DecidableEq, Repr

/-- The format column of `DEX_INSTRUCTION_LIST`, indexed by opcode. -/
def kInstructionFormats : List Format := [
  .k10x, .k12x, .k22x, .k32x, .k12x, .k22x, .k32x, .k12x, .k22x, .k32x, .k11x, .k11x, .k11x, .k11x, .k10x, .k11x,  -- 0x00
  .k11x, .k11x, .k11n, .k21s, .k31i, .k21h, .k21s, .k31i, .k51l, .k21h, .k21c, .k31c, .k21c, .k11x, .k11x, .k21c,  -- 0x10
  .k22c, .k12x, .k21c, .k22c, .k35c, .k3rc, .k31t, .k11x, .k10t, .k20t, .k30t, .k31t, .k31t, .k23x, .k23x, .k23x,  -- 0x20
  .k23x, .k23x, .k22t, .k22t, .k22t, .k22t, .k22t, .k22t, .k21t, .k21t, .k21t, .k21t, .k21t, .k21t, .k10x, .k10x,  -- 0x30
  .k10x, .k10x, .k10x, .k10x, .k23x, .k23x, .k23x, .k23x, .k23x, .k23x, .k23x, .k23x, .k23x, .k23x, .k23x, .k23x,  -- 0x40
  .k23x, .k23x, .k22c, .k22c, .k22c, .k22c, .k22c, .k22c, .k22c, .k22c, .k22c, .k22c, .k22c, .k22c, .k22c, .k22c,  -- 0x50
  .k21c, .k21c, .k21c, .k21c, .k21c, .k21c, .k21c, .k21c, .k21c, .k21c, .k21c, .k21c, .k21c, .k21c, .k35c, .k35c,  -- 0x60
  .k35c, .k35c, .k35c, .k10x, .k3rc, .k3rc, .k3rc, .k3rc, .k3rc, .k10x, .k10x, .k12x, .k12x, .k12x, .k12x, .k12x,  -- 0x70
  .k12x, .k12x, .k12x, .k12x, .k12x, .k12x, .k12x, .k12x, .k12x, .k12x, .k12x, .k12x, .k12x, .k12x, .k12x, .k12x,  -- 0x80
  .k23x, .k23x, .k23x, .k23x, .k23x, .k23x, .k23x, .k23x, .k23x, .k23x, .k23x, .k23x, .k23x, .k23x, .k23x, .k23x,  -- 0x90
  .k23x, .k23x, .k23x, .k23x, .k23x, .k23x, .k23x, .k23x, .k23x, .k23x, .k23x, .k23x, .k23x, .k23x, .k23x, .k23x,  -- 0xA0
  .k12x, .k12x, .k12x, .k12x, .k12x, .k12x, .k12x, .k12x, .k12x, .k12x, .k12x, .k12x, .k12x, .k12x, .k12x, .k12x,  -- 0xB0
  .k12x, .k12x, .k12x, .k12x, .k12x, .k12x, .k12x, .k12x, .k12x, .k12x, .k12x, .k12x, .k12x, .k12x, .k12x, .k12x,  -- 0xC0
  .k22s, .k22s, .k22s, .k22s, .k22s, .k22s, .k22s, .k22s, .k22b, .k22b, .k22b, .k22b, .k22b, .k22b, .k22b, .k22b,  -- 0xD0
  .k22b, .k22b, .k22b, .k10x, .k10x, .k10x, .k10x, .k10x, .k10x, .k10x, .k10x, .k10x, .k10x, .k10x, .k10x, .k10x,  -- 0xE0
  .k10x, .k10x, .k10x, .k10x, .k10x, .k10x, .k10x, .k10x, .k10x, .k10x, .k45cc, .k4rcc, .k35c, .k3rc, .k21c, .k21c]  -- 0xF0

/-- The position of a format in the source enum, for the range tests below. -/
def Format.ord : Format → Nat
  | .k10x => 0 | .k12x => 1 | .k11n => 2 | .k11x => 3 | .k10t => 4 | .k20t => 5 | .k22x => 6
  | .k21t => 7 | .k21s => 8 | .k21h => 9 | .k21c => 10 | .k23x => 11 | .k22b => 12 | .k22t => 13
  | .k22s => 14 | .k22c => 15 | .k32x => 16 | .k30t => 17 | .k31t => 18 | .k31i => 19
  | .k31c => 20 | .k35c => 21 | .k3rc => 22 | .k45cc => 23 | .k4rcc => 24 | .k51l => 25
  | .kInvalidFormat => 26

/-- `InstructionSizeInCodeUnitsByOpcode`: `none` stands for the source's `-1`, the opcodes whose
size has to be read from the instruction itself. -/
def instructionSizeInCodeUnitsByOpcode (opcode : Nat) (format : Format) : Option Nat :=
  if opcode = 0 then none
  else if format.ord ≤ Format.k10t.ord then some 1
  else if Format.k20t.ord ≤ format.ord ∧ format.ord ≤ Format.k22c.ord then some 2
  else if Format.k32x.ord ≤ format.ord ∧ format.ord ≤ Format.k3rc.ord then some 3
  else if Format.k45cc.ord ≤ format.ord ∧ format.ord ≤ Format.k4rcc.ord then some 4
  else if format = .k51l then some 5
  else none

/-- `kInstructionDescriptors[opcode].size_in_code_units`. -/
def sizeInCodeUnitsOfOpcode (opcode : Nat) : Option Nat :=
  instructionSizeInCodeUnitsByOpcode opcode (kInstructionFormats.getD opcode .kInvalidFormat)

/-- `Fetch16`: the code unit at `pc`; reads past the end give `0`, and every read the modelled
code makes is in bounds where it matters. -/
def fetch16 (insns : List Nat) (pc : Nat) : Nat := insns.getD pc 0

/-- `Fetch32`: two code units, low half first. -/
def fetch32 (insns : List Nat) (pc : Nat) : Nat :=
  fetch16 insns pc ||| (fetch16 insns (pc + 1) <<< 16)

def kPackedSwitchSignature : Nat := 0x0100
def kSparseSwitchSignature : Nat := 0x0200
def kArrayDataSignature : Nat := 0x0300

/-- The table size of a fill-array-data payload, `4 + (element_size * length + 1) / 2`, in the
`uint32_t` arithmetic both `SizeInCodeUnitsComplexOpcode` and `CheckArrayData` use. -/
def arrayDataTableSize (width count : Nat) : Nat :=
  u32 (4 + u32 (u32 (width * count) + 1) / 2)

/-- `Instruction::SizeInCodeUnitsComplexOpcode` for the instruction at `pc`. -/
def sizeInCodeUnitsComplexOpcode (insns : List Nat) (pc : Nat) : Nat :=
  let unit := fetch16 insns pc
  if unit = kPackedSwitchSignature then 4 + fetch16 insns (pc + 1) * 2
  else if unit = kSparseSwitchSignature then 2 + fetch16 insns (pc + 1) * 4
  else if unit = kArrayDataSignature then
    arrayDataTableSize (fetch16 insns (pc + 1)) (fetch32 insns (pc + 2))
  else 1

/-- `Instruction::CodeUnitsRequiredForSizeOfComplexOpcode`. -/
def codeUnitsRequiredForSizeOfComplexOpcode (insns : List Nat) (pc : Nat) : Nat :=
  let unit := fetch16 insns pc
  if unit = kPackedSwitchSignature ∨ unit = kSparseSwitchSignature then 2
  else if unit = kArrayDataSignature then 4
  else 1

/-- `Instruction::Opcode`: the low byte of the first unit. -/
def opcodeAt (insns : List Nat) (pc : Nat) : Nat := fetch16 insns pc % 256

/-- `Instruction::SizeInCodeUnits`. -/
def sizeInCodeUnits (insns : List Nat) (pc : Nat) : Nat :=
  match sizeInCodeUnitsOfOpcode (opcodeAt insns pc) with
  | some n => n
  | none => sizeInCodeUnitsComplexOpcode insns pc

/-- `Instruction::CodeUnitsRequiredForSizeComputation`. -/
def codeUnitsRequiredForSizeComputation (insns : List Nat) (pc : Nat) : Nat :=
  match sizeInCodeUnitsOfOpcode (opcodeAt insns pc) with
  | some _ => 1
  | none => codeUnitsRequiredForSizeOfComplexOpcode insns pc

/-- `SafeDexInstructionIterator::operator++`: the next dex pc, or `none` for the error state, when
the size cannot be computed, or the instruction does not fit, in the units left. -/
def safeNext (insns : List Nat) (pc : Nat) : Option Nat :=
  let available := insns.length - pc
  if codeUnitsRequiredForSizeComputation insns pc > available then none
  else if sizeInCodeUnits insns pc > available then none
  else some (pc + sizeInCodeUnits insns pc)

/-- The loop of `ComputeWidthsAndCountOps` from `pc`, with `fuel` bounding the iterations: the
dex pcs it marks as opcodes, or `none` when the walk does not end at the end of the code item. -/
def widthsLoop (insns : List Nat) : Nat → Nat → Option (List Nat)
  | 0, pc => if pc < insns.length then none else some []
  | fuel + 1, pc =>
    if pc < insns.length then
      match safeNext insns pc with
      | none => none
      | some next => (widthsLoop insns fuel next).map (pc :: ·)
    else some []

/-- `MethodVerifier::ComputeWidthsAndCountOps`: every instruction takes at least one unit, so
`insns.length` iterations reach the end. -/
def computeWidthsAndCountOps (insns : List Nat) : Option (List Nat) :=
  widthsLoop insns insns.length 0

end Art
