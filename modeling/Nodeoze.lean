import Nodeoze.Lib.Endian
import Nodeoze.Lib.Replacement
import Nodeoze.Lib.Quoted
import Nodeoze.Lib.LongestRun
import Nodeoze.Lib.Numeral
import Nodeoze.Lib.Base64
import Nodeoze.Lib.Rfc3986
import Nodeoze.Net.ProxyAuthorization
import Nodeoze.Net.Uri
import Nodeoze.Net.UriRoundTrip
import Nodeoze.Buffer.Filling
import Nodeoze.Net.Receiving
import Nodeoze.Net.Sending
import Nodeoze.Fs.Reader
import Nodeoze.Fs.Writer
import Nodeoze.Fs.Copying
import Nodeoze.Net.AddressRoundTrip
import Nodeoze.Database.Sanitize
import Nodeoze.Database.Outcomes
import Nodeoze.Any.Replace
import Nodeoze.Lib.Reader
import Nodeoze.Lib.ReaderRuns
import Nodeoze.Bstream.Primitives
import Nodeoze.Bstream.Typecode
import Nodeoze.Bstream.Value
import Nodeoze.Bstream.Context
import Nodeoze.Bstream.Obstream
import Nodeoze.Bstream.Ibstream
import Nodeoze.Bstream.SharedGraph
import Nodeoze.Bstream.RoundTrip
import Nodeoze.Bstream.Overloads
import Nodeoze.Bstream.Oversized
import Nodeoze.Bstream.Sizes
import Nodeoze.Bstream.Pointers
import Nodeoze.Bstream.WholeFormat
import Nodeoze.Bstream.SharedObjects
import Nodeoze.Bstream.FirstOccurrence
import Nodeoze.Buffer.Basic
import Nodeoze.Buffer.Spec
import Nodeoze.Buffer.Bufwriter
import Nodeoze.Lib.Msgpack
import Nodeoze.Bstream.Ingest
import Nodeoze.Bstream.Verbatim
import Nodeoze.Bstream.Obmembuf
import Nodeoze.Bstream.ObmembufSpec
import Nodeoze.Bstream.ObmembufRefines
import Nodeoze.Bstream.ObmembufIsolation
import Nodeoze.Lib.TwoRuns
import Nodeoze.Bstream.Ombstream
import Nodeoze.Bstream.AppendMode
import Nodeoze.Bstream.WriteFailures
import Nodeoze.Bstream.Cleared
import Nodeoze.Raft.Frames
import Nodeoze.Raft.Recover
import Nodeoze.Bstream.Obfilebuf
import Nodeoze.Raft.Log
import Nodeoze.Raft.LogFile
import Nodeoze.Raft.LogSpec
import Nodeoze.Raft.Durability
import Nodeoze.Raft.Crash
import Nodeoze.Lib.Quorum
import Nodeoze.Raft.Replicant
import Nodeoze.Raft.Election
import Nodeoze.Raft.Votes
import Nodeoze.Bstream.ErrorCategory
import Nodeoze.Bstream.Ext
import Nodeoze.Bstream.FileRefines
import Nodeoze.Bstream.Ibmembuf
import Nodeoze.Bstream.Headers
import Nodeoze.Bstream.Ibfilebuf
import Nodeoze.Any.Basic
import Nodeoze.Any.Sizes
import Nodeoze.Any.Stream
import Nodeoze.Database.Bitmap
import Nodeoze.Database.ContinuousSelect
import Nodeoze.Database.Tracking
import Nodeoze.Buffer.Changes
import Nodeoze.Buffer.Operations
import Nodeoze.Buffer.Representation
import Nodeoze.Buffer.Isolation
import Nodeoze.Any.Patch
import Nodeoze.Any.Edits
import Nodeoze.Any.DiffPatch
import Nodeoze.Any.Mpack
import Nodeoze.Any.Resolve
import Nodeoze.Event.StateMachine
import Nodeoze.Event.Promise
import Nodeoze.Event.Promises
import Nodeoze.Event.Settlements
import Nodeoze.Event.Continuations
import Nodeoze.Event.Callstack
import Nodeoze.Event.Wiring
import Nodeoze.Event.Chains
import Nodeoze.Any.JsonContext
import Nodeoze.Event.Writable
import Nodeoze.Event.Finishing
import Nodeoze.Event.WriteCallbacks
import Nodeoze.Event.Pipe
import Nodeoze.Event.Backpressure
import Nodeoze.Event.Runloop
import Nodeoze.Event.Timeouts
import Nodeoze.Event.TimeoutRuns
import Nodeoze.Event.TimeoutSafety
import Nodeoze.Event.Emitter
import Nodeoze.Lib.SortedMap
import Nodeoze.Rpc.Manager
import Nodeoze.Rpc.Errors
import Nodeoze.Rpc.Answers
import Nodeoze.Rpc.Correlation
import Nodeoze.Net.Socks5
import Nodeoze.Database.BitmapSet
import Nodeoze.Crypto.Sha1
import Nodeoze.Lib.Counter
import Nodeoze.Lib.Popcount
import Nodeoze.Lib.Fips180
import Nodeoze.Raft.Granting
import Nodeoze.Raft.Ownership
import Nodeoze.Raft.Indexing
import Nodeoze.Lib.Partway
import Nodeoze.Raft.LogFailures
import Nodeoze.Lib.MsgpackInt
import Nodeoze.Bstream.Integers
import Nodeoze.Bstream.Malformed
import Nodeoze.Bstream.Attempts
import Nodeoze.Bstream.ObmembufAsserts
import Nodeoze.Bstream.FixedBuffer
import Nodeoze.Bstream.Fetching
import Nodeoze.Bstream.ReadFailures
import Nodeoze.Bstream.FileSeeks
import Nodeoze.Buffer.Contents
import Nodeoze.Buffer.Views
import Nodeoze.Buffer.CheckedStores
import Nodeoze.Lib.Subword
import Nodeoze.Buffer.Search
import Nodeoze.Lib.Crc32
import Nodeoze.Buffer.Checksum
import Nodeoze.Database.BitmapAssign
import Nodeoze.Event.Observers
import Nodeoze.Lib.JsonText
import Nodeoze.Any.JsonParser
import Nodeoze.Lib.JsonUnique
import Nodeoze.Lib.JsonLexemes
import Nodeoze.Any.JsonWriter
import Nodeoze.Lib.Tokens
import Nodeoze.Database.Statements
import Nodeoze.Database.StatementHeap
import Nodeoze.Database.StatementRuns
import Nodeoze.Database.StatementSafety
import Nodeoze.Database.StatementClose
import Nodeoze.Any.PatchInPlace
import Nodeoze.Any.PatchMeaning
import Nodeoze.Database.Cancellation
import Nodeoze.Database.CheckQuery
import Nodeoze.Event.Gathering
import Nodeoze.Event.Combinators
