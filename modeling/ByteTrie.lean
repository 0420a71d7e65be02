import ByteTrie.Trie.Lookup
import ByteTrie.Range.Basic
import ByteTrie.Codec.Tree
import ByteTrie.Algebra.Slice
import ByteTrie.Algebra.Product
import ByteTrie.Cursor.Iterate
import ByteTrie.PrefixKey
import ByteTrie.Text.Listing
import ByteTrie.Limits
import ByteTrie.Digest.Blake3
import ByteTrie.Digest.Intern
import ByteTrie.Occupancy
import ByteTrie.View.Json
import ByteTrie.View.Chart
import ByteTrie.Transform
import ByteTrie.Pattern.Rewrite
import ByteTrie.Proofs.Members
import ByteTrie.Proofs.Canonical
import ByteTrie.Proofs.Pool
import ByteTrie.Proofs.Merge
import ByteTrie.Proofs.Sets
import ByteTrie.Proofs.Build
import ByteTrie.Proofs.Cursor
import ByteTrie.Proofs.Decode
import ByteTrie.Proofs.Product
import ByteTrie.Proofs.Range
import ByteTrie.Proofs.Slice
import ByteTrie.Proofs.Shape
import ByteTrie.Proofs.Digest
import ByteTrie.Proofs.Intern
import ByteTrie.Proofs.Session
import ByteTrie.Proofs.Equality
import ByteTrie.Proofs.Laws
import ByteTrie.Proofs.Sharing
import ByteTrie.Proofs.RoundTrip
import ByteTrie.Proofs.Mask
import ByteTrie.Proofs.Count
import ByteTrie.Proofs.Position
import ByteTrie.Proofs.Moves
import ByteTrie.Proofs.Observers
import ByteTrie.Proofs.Progression
import ByteTrie.Proofs.Successor
import ByteTrie.Proofs.Restriction
import ByteTrie.Proofs.Fingerprint
import ByteTrie.Proofs.Distinct
import ByteTrie.Proofs.Consing
import ByteTrie.Proofs.Delimiting
import ByteTrie.Proofs.Nesting
import ByteTrie.Proofs.Listing
import ByteTrie.Proofs.Enumeration
import ByteTrie.Proofs.Reuse
import ByteTrie.Proofs.Expression
import ByteTrie.Proofs.Concatenation
import ByteTrie.Proofs.Truncation
import ByteTrie.Proofs.Insertion
import ByteTrie.Proofs.Fork
import ByteTrie.Proofs.Batch
import ByteTrie.Proofs.Records
import ByteTrie.Proofs.Writing
import ByteTrie.Proofs.Accounting
import ByteTrie.Proofs.Settled
import ByteTrie.Proofs.Joining
import ByteTrie.Proofs.Places
import ByteTrie.Proofs.Occupancy
import ByteTrie.Proofs.Census
import ByteTrie.Proofs.Grafting
import ByteTrie.Proofs.Chart
import ByteTrie.Proofs.View
import ByteTrie.Proofs.Transform
import ByteTrie.Proofs.Extremes
import ByteTrie.Proofs.Watched
import ByteTrie.Proofs.PrefixKey
import ByteTrie.Proofs.Words
import ByteTrie.Proofs.Scan
import ByteTrie.Proofs.ByteSet
import ByteTrie.Proofs.Rows
