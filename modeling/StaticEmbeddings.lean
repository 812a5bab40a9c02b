import StaticEmbeddings.Lib.LittleEndian
import StaticEmbeddings.Lib.Utf8
import StaticEmbeddings.Lib.SortedSearch
import StaticEmbeddings.Lib.Transducer
import StaticEmbeddings.Format.Accepted
import StaticEmbeddings.Format.Readers
import StaticEmbeddings.Tokenizer.Pieces
import StaticEmbeddings.Tokenizer.Boundary
import StaticEmbeddings.Tokenizer.Segments
import StaticEmbeddings.Tokenizer.FastPath
import StaticEmbeddings.Embed
import StaticEmbeddings.Convert.Writer
import StaticEmbeddings.Tokenizer.Cancel
import StaticEmbeddings.Tokenizer.Safety
import StaticEmbeddings.Tokenizer.Acceptance
import StaticEmbeddings.Vector.Topk
import StaticEmbeddings.Vector.Half
import StaticEmbeddings.Vector.Kernels
import StaticEmbeddings.Convert.PackedTrie
import StaticEmbeddings.Convert.PackedHash
import StaticEmbeddings.Convert.Written
import StaticEmbeddings.Convert.Vocabulary
import StaticEmbeddings.Tokenizer.Greedy
import StaticEmbeddings.Convert.Matrix
import StaticEmbeddings.Vector.Encode
import StaticEmbeddings.Runtime.ScratchRuns
import StaticEmbeddings.Convert.Describe
import StaticEmbeddings.Convert.UnicodeTables
import StaticEmbeddings.Tokenizer.Law
import StaticEmbeddings.Runtime.Snapshot
import StaticEmbeddings.Runtime.ActiveOpsRuns
import StaticEmbeddings.Convert.Importer
import StaticEmbeddings.Runtime.Truncation
import StaticEmbeddings.Convert.Conversion
import StaticEmbeddings.Reference.Refinement
