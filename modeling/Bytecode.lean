import Bytecode.Archive
import Bytecode.Attribute
import Bytecode.ClassDraft
import Bytecode.ClassFile
import Bytecode.Config
import Bytecode.Constant
import Bytecode.Descriptor
import Bytecode.Descriptor.Reader
import Bytecode.Error
import Bytecode.Flags
import Bytecode.Frame
import Bytecode.Frame.Execute
import Bytecode.Label
import Bytecode.Layout
import Bytecode.Leaf
import Bytecode.Lines
import Bytecode.Listing
import Bytecode.Method
import Bytecode.Name
import Bytecode.Octets
import Bytecode.Opcode
import Bytecode.Placement
import Bytecode.Pool
import Bytecode.Slotted
import Bytecode.StackMap
import Bytecode.Text.Hidden
import Bytecode.Text.Modified
import Bytecode.Text.Quoted
import Bytecode.Tree
import Bytecode.Tree.Control
import Bytecode.Tree.Select
import Bytecode.VType
import Bytecode.Version
import Bytecode.Walk
import Bytecode.Proofs.Interning
import Bytecode.Proofs.Placement
import Bytecode.Proofs.Arrays
import Bytecode.Proofs.Offsets
import Bytecode.Proofs.Slots
import Bytecode.Proofs.Timeline
import Bytecode.Proofs.Walk
import Bytecode.Proofs.Agreement
import Bytecode.Proofs.Decoder
import Bytecode.Proofs.Decoding
import Bytecode.Proofs.Items
import Bytecode.Proofs.Requests
import Bytecode.Proofs.FrameOrder
import Bytecode.Proofs.Recording
import Bytecode.Proofs.Track
import Bytecode.Proofs.Flow
import Bytecode.Proofs.Fixpoint
import Bytecode.Proofs.Table
import Bytecode.Proofs.Assembly
import Bytecode.Proofs.HandlerFrames
import Bytecode.Proofs.Loops
import Bytecode.Proofs.Stretches
import Bytecode.Proofs.Dispatch
import Bytecode.Proofs.Passes
import Bytecode.Proofs.Descriptors
import Bytecode.Proofs.Machine
import Bytecode.Proofs.Compilation
import Bytecode.Proofs.Denotation
import Bytecode.Proofs.Repetition
import Bytecode.Proofs.Merging
import Bytecode.Proofs.Precision
import Bytecode.Proofs.Paths
import Bytecode.Proofs.Casts
import Bytecode.Proofs.Room
import Bytecode.Proofs.Maxima
import Bytecode.Proofs.Limits
import Bytecode.Proofs.ModifiedText
import Bytecode.Proofs.FileReader
import Bytecode.Proofs.FileRoundTrip
import Bytecode.Proofs.Asking
import Bytecode.Proofs.References
import Bytecode.Proofs.Integrity
import Bytecode.Proofs.Histories
import Bytecode.Proofs.Upkeep
import Bytecode.Proofs.Retries
import Bytecode.Proofs.Initializers
import Bytecode.Proofs.Counts
import Bytecode.Proofs.Frozen
import Bytecode.Proofs.Watching
import Bytecode.Proofs.Blocks
import Bytecode.Proofs.LineTable
import Bytecode.Proofs.FramePositions
import Bytecode.Proofs.Elision
import Bytecode.Proofs.WideLocals
import Bytecode.Proofs.Coarser
import Bytecode.Proofs.Provenance
import Bytecode.Proofs.Spelling
import Bytecode.Proofs.Selection
import Bytecode.Proofs.Refusals
import Bytecode.Proofs.Supply
import Bytecode.Proofs.Builder
import Bytecode.Proofs.Traversal
import Bytecode.Proofs.Sequencing
import Bytecode.Proofs.Construction
import Bytecode.Proofs.Entry
