import Rend.Lib.Checks
import Rend.Lib.Bytes
import Rend.Lib.Dense
import Rend.Lib.Hamt
import Rend.Lib.HamtMerge
import Rend.Lib.HamtCanon
import Rend.Value
import Rend.Serialize
import Rend.Pmap.Node
import Rend.Tx
import Rend.Drain
import Rend.Nodes
import Rend.Leaves
import Rend.Handles
import Rend.Pmap.Ops
import Rend.Pmap.Keys
import Rend.Pmap.Trie
import Rend.Pmap.Refine
import Rend.Pmap.Runs
import Rend.Pmap.Store
import Rend.Pmap.Merge
import Rend.Pmap.PerKey
import Rend.Pmap.Serial
import Rend.Pmap.Shape
import Rend.Lib.Chunks
import Rend.Pvec.Ops
import Rend.Pvec.Refine
import Rend.Pvec.Runs
import Rend.Lib.ListMerge
import Rend.Pvec.Merge
import Rend.Lib.Separated
import Rend.Pbtree.Ops
import Rend.Pbtree.Shape
import Rend.Pbtree.Readers
import Rend.Pbtree.Writers
import Rend.Pbtree.Runs
import Rend.Rocks.Commit
import Rend.Rocks.Exec
import Rend.Rocks.Forced
import Rend.Rocks.NoDangling
import Rend.Rocks.Unset
import Rend.Bytecode
import Rend.Optimize.Pass
import Rend.Optimize.Places
import Rend.Optimize.Relocate
import Rend.Lib.Codec
import Rend.Lib.SortedMap
import Rend.Artifact.Format
import Rend.Artifact.Parts
import Rend.Artifact.Assemble
import Rend.Artifact.Defaults
import Rend.Artifact.Erase
import Rend.Artifact.RoundTrip
import Rend.Storage.Typed
import Rend.Storage.RoundTrip
import Rend.Index.Maintain
import Rend.Index.Complete
import Rend.Lib.ByteOrder
import Rend.Index.KeyOrder
import Rend.Link.Dispatch
import Rend.Lib.Reorder
import Rend.Link.Engine
import Rend.Link.Order
import Rend.Link.Stored
import Rend.Lib.UsePaths
import Rend.Affine.Check
import Rend.Affine.Inline
import Rend.Affine.Paths
import Rend.Affine.Occurs
import Rend.Affine.Track
import Rend.Affine.Sound
import Rend.Effects.Classify
import Rend.Effects.Paths
import Rend.Effects.Looks
import Rend.Effects.Sound
import Rend.Link.Honoured
import Rend.Vm.Run
import Rend.Vm.Fuel
import Rend.Vm.ReadSet
import Rend.Vm.Trace
import Rend.Vm.Deferred
import Rend.Structs.Write
import Rend.Structs.Assemble
import Rend.Vm.Awaits
import Rend.Vm.Forcing
import Rend.Pmap.Levels
import Rend.Structs.Laid
import Rend.Vm.Batch
import Rend.Structs.Paths
import Rend.Structs.Registers
import Rend.Structs.Stores
import Rend.Structs.Coherent
import Rend.Vm.Lookups
import Rend.Vm.PmapWalk
import Rend.Vm.Reserve
import Rend.Lib.SeekWalk
import Rend.Pbtree.Footprint
import Rend.Vm.PbtreeWalk
import Rend.Vm.Reentry
import Rend.Occ
import Rend.Json.Text
import Rend.Json.Image
import Rend.Json.RoundTrip
import Rend.Server.Auth
import Rend.Server.Replay
import Rend.Lib.Enough
import Rend.Syntax.ParseExpr
import Rend.Syntax.PrintExpr
import Rend.Modifier.Expand
import Rend.Modifier.Inline
import Rend.Modifier.Wrapper
import Rend.Typeck.Resolve
import Rend.Typeck.Mentions
import Rend.Lib.InOrder
import Rend.Typeck.Canonical
import Rend.Typeck.Annotations
import Rend.Typeck.Passes
import Rend.Typeck.Complete
import Rend.Compile.Prefetch
import Rend.Ops.Convert
import Rend.Ops.Same
import Rend.Ops.Eval
import Rend.Compile.Forms
import Rend.Compile.Loops
import Rend.Compile.Lower
import Rend.Compile.Fits
import Rend.Compile.Frees
import Rend.Compile.Lossless
import Rend.Compile.Demands
import Rend.Compile.Sound
import Rend.Compile.SoundForms
import Rend.Compile.SoundControl
import Rend.Compile.SoundStmts
import Rend.Compile.SoundTree
import Rend.Compile.WellFormed
import Rend.Compile.Module
import Rend.Optimize.WellFormed
import Rend.Vm.Frames
import Rend.Vm.NodeValues
import Rend.Vm.Data
import Rend.Vm.Collections
import Rend.Vm.DataFlow
import Rend.Vm.StateFlow
import Rend.Vm.DataCalls
import Rend.Gc
import Rend.Gc.Reads
import Rend.Syntax.Source
