import PackedTree.Artifact
import PackedTree.Artifact.Bytes
import PackedTree.Artifact.Listing
import PackedTree.Binary64
import PackedTree.Binary64.Rounding
import PackedTree.Catalog
import PackedTree.Catalog.Discovery
import PackedTree.Catalog.Merge
import PackedTree.Catalog.Signature
import PackedTree.Command.Arguments
import PackedTree.Command.FileStore
import PackedTree.Command.Guide
import PackedTree.Command.Host
import PackedTree.Command.Parameter
import PackedTree.Command.Run
import PackedTree.Config
import PackedTree.Config.Reader
import PackedTree.Counting
import PackedTree.Decimal.Layout
import PackedTree.Decimal.Shortest
import PackedTree.Encode
import PackedTree.EncodeError
import PackedTree.Event
import PackedTree.InternTable
import PackedTree.Json.Document
import PackedTree.Json.Printer
import PackedTree.Json.Reader
import PackedTree.Json.SyntaxError
import PackedTree.Json.Token
import PackedTree.Main
import PackedTree.Named
import PackedTree.Pass
import PackedTree.Proofs.Artifact.Entries
import PackedTree.Proofs.Artifact.Image
import PackedTree.Proofs.Content
import PackedTree.Proofs.Discovery
import PackedTree.Proofs.Encode
import PackedTree.Proofs.Encode.Lossless
import PackedTree.Proofs.Encode.Mirror
import PackedTree.Proofs.Encode.SelfDelimiting
import PackedTree.Proofs.Graph
import PackedTree.Proofs.InternTable
import PackedTree.Proofs.Json.Numbers
import PackedTree.Proofs.Json.Texts
import PackedTree.Proofs.Merge
import PackedTree.Proofs.Merge.Exact
import PackedTree.Proofs.Pass
import PackedTree.Proofs.Shape
import PackedTree.Proofs.Signature
import PackedTree.Proofs.Signature.Exact
import PackedTree.Proofs.Signature.Keys
import PackedTree.Proofs.Signature.Words
import PackedTree.Proofs.Traversal
import PackedTree.Proofs.Wire.LittleEndian
import PackedTree.Proofs.Wire.Reader
import PackedTree.Proofs.Wire.Unlimited
import PackedTree.Shape
import PackedTree.Slot
import PackedTree.Stats
import PackedTree.Text.Hidden
import PackedTree.Text.Plain
import PackedTree.Text.Quoted
import PackedTree.Tree
import PackedTree.Tree.OfJson
import PackedTree.Wire.IntEncoding
import PackedTree.Wire.Tag
import PackedTree.Wire.Varint
import PackedTree.Wire.Writer
import PackedTree.Proofs.Wire.Limit
import PackedTree.Proofs.Encode.Limit
import PackedTree.Proofs.Renaming
import PackedTree.Proofs.Renaming.Tables
import PackedTree.Proofs.Renaming.Discovery
import PackedTree.Proofs.Renaming.Merge
import PackedTree.Proofs.Renaming.Encode
import PackedTree.Proofs.Discovery.Order
import PackedTree.Proofs.Encode.Refusal
import PackedTree.Proofs.InternTable.History
import PackedTree.Proofs.Encode.Listing
import PackedTree.Proofs.Encode.Minimal
import PackedTree.Proofs.Merge.Descent
import PackedTree.Proofs.Merge.Canonical
import PackedTree.Proofs.Encode.Shrink
import PackedTree.Proofs.Discovery.Tables
import PackedTree.Proofs.Encode.Traceless
import PackedTree.Proofs.Encode.Renumbering
import PackedTree.Proofs.Wire.Tally
import PackedTree.Proofs.Encode.Accounting
import PackedTree.Proofs.Binary64.Rounding
import PackedTree.Proofs.Encode.Reuse
import PackedTree.Proofs.Tree.OfJson
import PackedTree.Proofs.Discovery.Recursion
import PackedTree.Proofs.Command.FileStore
import PackedTree.Proofs.Command.Arguments
import PackedTree.Proofs.Command.Reading
import PackedTree.Proofs.Command.Writing
import PackedTree.Proofs.Command.Run
import PackedTree.Proofs.Command.Outcome
import PackedTree.Proofs.Wire.Varint
import PackedTree.Proofs.Wire.Operation
import PackedTree.Proofs.Shape.Registry
import PackedTree.Proofs.Json.Document
import PackedTree.Proofs.Tree.Document
import PackedTree.Proofs.Wire.Attempts
import PackedTree.Proofs.Binary64.Integers
import PackedTree.Proofs.Binary64.Nearest
import PackedTree.Proofs.Signature.Machine
import PackedTree.Proofs.Signature.Calls
