import Art.Dex.Instruction
import Art.Dex.FillArrayData
import Art.Proofs.FillArrayData
import Art.Dex.Utf
import Art.Mirror.String
import Art.Proofs.Utf
import Art.Proofs.String
import Art.Base.HashSet
import Art.Proofs.HashSet
import Art.Lib.LinearProbing
import Art.Proofs.HashSetProbe
import Art.Lib.LinkedChain
import Art.Dex.TypeLookupTable
import Art.Proofs.TypeLookupTable
import Art.Lib.Transition
import Art.Runtime.Mutex
import Art.Proofs.Mutex
import Art.Runtime.ReaderWriterMutex
import Art.Proofs.ReaderWriterMutex
import Art.Base.BitMemory
import Art.Base.BitTable
import Art.Lib.ByteMemory
import Art.Base.BitMemoryRegion
import Art.Lib.Lex
import Art.Proofs.BitMemoryRegion
import Art.Runtime.CodeInfo
import Art.Proofs.BitMemory
import Art.Proofs.BitTable
import Art.Proofs.Dedupe
import Art.Compiler.StackMapStream
import Art.Compiler.BoundsCheckElimination
import Art.Proofs.BoundsCheckElimination
import Art.Proofs.StackMap
import Art.Lib.CappedSet
import Art.Lib.SortedMap
import Art.Profile.ProfileCompilationInfo
import Art.Profile.Content
import Art.Proofs.ProfileMerge
import Art.Proofs.MergeWith
import Art.Proofs.TableBuilder
import Art.Runtime.IndirectReferenceTable
import Art.Proofs.IndirectReferenceTable
import Art.Base.BitUtils
import Art.Base.BitString
import Art.Lib.PathLabel
import Art.Runtime.SubtypeCheck
import Art.Proofs.SubtypeCheckInfo
import Art.Proofs.SubtypeCheck
import Art.Lib.Leb128
import Art.Base.Leb128
import Art.Proofs.Leb128
import Art.Lib.MagicDivision
import Art.Compiler.CodeGenerator
import Art.Proofs.DivByConstant
import Art.Lib.WordBits
import Art.Base.BitVector
import Art.Proofs.BitVector
import Art.Lib.PartitionPoint
import Art.Proofs.NativePcLookup
import Art.Proofs.StackMapOrder
import Art.Dex.CompactOffsetTable
import Art.Proofs.CompactOffsetTable
import Art.Proofs.Utf16RoundTrip
import Art.Dex.DexFileVerifier
import Art.Dex.DescriptorsNames
import Art.Profile.Load
import Art.Proofs.ProfileLoad
import Art.Lib.Closure
import Art.Base.BitVectorArray
import Art.Proofs.BitVectorArray
import Art.Compiler.Reachability
import Art.Proofs.Reachability
import Art.Lib.IntervalList
import Art.Compiler.LiveInterval
import Art.Proofs.LiveInterval
import Art.Proofs.LiveIntervalSplit
import Art.Proofs.LiveIntervalRun
import Art.Dex.CompactDexFile
import Art.Proofs.CompactDexCodeItem
import Art.Base.BitMemoryWriter
import Art.Proofs.BitMemoryWriter
import Art.Lib.Interleaving
import Art.Runtime.ProfilingInfo
import Art.Proofs.ProfilingInfo
import Art.Lib.BinaryFloat
import Art.Compiler.TypeConversion
import Art.Proofs.TypeConversion
import Art.Runtime.SpaceBitmap
import Art.Proofs.SpaceBitmap
import Art.Lib.ParentChain
import Art.Mirror.Class
import Art.Verifier.RegType
import Art.Proofs.ClassJoin
import Art.Base.ArenaAllocator
import Art.Proofs.ArenaAllocator
import Art.Compiler.LoadStoreAnalysis
import Art.Runtime.LockWord
import Art.Proofs.LockWord
