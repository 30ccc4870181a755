import ObTools.Access.Checker
import ObTools.Action.Manager
import ObTools.Cache.Cache
import ObTools.Cache.Lru
import ObTools.Channel.Bits
import ObTools.Channel.Block
import ObTools.Channel.ExpGolomb
import ObTools.Channel.Fields
import ObTools.Channel.LimitedReader
import ObTools.Channel.ReadToEof
import ObTools.Channel.Reader
import ObTools.Channel.StreamReader
import ObTools.Channel.StringWriter
import ObTools.Cppt.Fidelity
import ObTools.Cppt.Held
import ObTools.Cppt.Processor
import ObTools.Cppt.Template
import ObTools.Crypto.Aes
import ObTools.Crypto.Pkcs7
import ObTools.Db.FieldValue
import ObTools.Db.Pool
import ObTools.Db.PoolIdle
import ObTools.Db.PoolLemmas
import ObTools.Dns.Resolver
import ObTools.Expression.Evaluate
import ObTools.Expression.Evaluator
import ObTools.Expression.EvaluatorLemmas
import ObTools.Expression.Grammar
import ObTools.Expression.Tokeniser
import ObTools.Expression.TokeniserLemmas
import ObTools.File.Path
import ObTools.Gather.Append
import ObTools.Gather.Buffer
import ObTools.Gather.BufferLemmas
import ObTools.Gather.ByteString
import ObTools.Gather.FlatData
import ObTools.Gather.Reader
import ObTools.Gather.ReaderLemmas
import ObTools.Gather.Refinement
import ObTools.Gather.Update
import ObTools.Hash.AddLemmas
import ObTools.Hash.Block
import ObTools.Hash.Check
import ObTools.Hash.Invariant
import ObTools.Hash.Refinement
import ObTools.Hash.RemoveLemmas
import ObTools.Hash.Table
import ObTools.Huffman.ReadString
import ObTools.Huffman.Tree
import ObTools.Json.Cbor
import ObTools.Json.CborBreaks
import ObTools.Json.CborContainers
import ObTools.Json.CborFraming
import ObTools.Json.CborIntegers
import ObTools.Json.CborItems
import ObTools.Json.CborLemmas
import ObTools.Json.CborTrees
import ObTools.Json.Numbers
import ObTools.Json.Parser
import ObTools.Json.ParserLemmas
import ObTools.Json.Print
import ObTools.Json.PrintLemmas
import ObTools.Json.Tokens
import ObTools.Json.Value
import ObTools.Lex.Analyser
import ObTools.Lex.Symbols
import ObTools.Lib.BigEndian
import ObTools.Lib.BitTrie
import ObTools.Lib.Bits
import ObTools.Lib.Blocks
import ObTools.Lib.BreadthFirst
import ObTools.Lib.Calendar
import ObTools.Lib.Decoder
import ObTools.Lib.Delimiter
import ObTools.Lib.Digits
import ObTools.Lib.DoublyLinked
import ObTools.Lib.Fifo
import ObTools.Lib.Forest
import ObTools.Lib.Intervals
import ObTools.Lib.Lines
import ObTools.Lib.Memory
import ObTools.Lib.Nesting
import ObTools.Lib.Overlay
import ObTools.Lib.Pairing
import ObTools.Lib.Places
import ObTools.Lib.Replace
import ObTools.Lib.Runs
import ObTools.Lib.ShiftRegister
import ObTools.Lib.SortedMap
import ObTools.Lib.Ticks
import ObTools.Lib.Visits
import ObTools.Lib.Wildcard
import ObTools.Lib.Window
import ObTools.Log.Filter
import ObTools.Merkle.LeafHash
import ObTools.Merkle.Root
import ObTools.Merkle.TraversalLemmas
import ObTools.Merkle.Tree
import ObTools.Misc.Crc
import ObTools.Misc.Insert
import ObTools.Misc.Interpolate
import ObTools.Misc.Intersection
import ObTools.Misc.Inverse
import ObTools.Misc.Md5
import ObTools.Misc.PropertyList
import ObTools.Misc.RangeLemmas
import ObTools.Misc.RangeSet
import ObTools.Misc.Remove
import ObTools.Misc.RemoveLoop
import ObTools.Misc.Serialise
import ObTools.Misc.Sweep
import ObTools.Mt.DataQueue
import ObTools.Mt.RWMutex
import ObTools.Mt.ThreadPool
import ObTools.Net.Address
import ObTools.ReGen.Again
import ObTools.ReGen.Master
import ObTools.ReGen.MergeLemmas
import ObTools.ReGen.Merged
import ObTools.ReGen.Preserve
import ObTools.ReGen.Regenbuf
import ObTools.ReGen.Segments
import ObTools.ReGen.Stable
import ObTools.Ring.Buffer
import ObTools.Ring.Flush
import ObTools.Script.Action
import ObTools.Script.Trace
import ObTools.Text.Base58
import ObTools.Text.Base64
import ObTools.Text.Base64Lemmas
import ObTools.Text.Bech32
import ObTools.Text.Convert
import ObTools.Text.Csv
import ObTools.Text.Glob
import ObTools.Text.Lines
import ObTools.Text.Pattern
import ObTools.Text.PatternCase
import ObTools.Text.PatternMatches
import ObTools.Text.PatternSearch
import ObTools.Text.PatternTokens
import ObTools.Text.Positional
import ObTools.Text.Split
import ObTools.Text.Subst
import ObTools.Text.Utf8
import ObTools.Text.Whitespace
import ObTools.Time.DateStamp
import ObTools.Time.Instant
import ObTools.Time.IsoGrammar
import ObTools.Time.IsoStamp
import ObTools.Time.NormaliseLemmas
import ObTools.Time.ReadIso
import ObTools.Time.Stamp
import ObTools.Time.StampLemmas
import ObTools.Tube.BiSyncServer
import ObTools.Tube.Link
import ObTools.Tube.SyncRequest
import ObTools.Tube.SyncResponse
import ObTools.Web.Chunked
import ObTools.Web.Cookies
import ObTools.Web.CookiesReturned
import ObTools.Web.HTTPMessage
import ObTools.Web.HTTPMessageLemmas
import ObTools.Web.MIMEHeaders
import ObTools.Web.MIMEHeadersLemmas
import ObTools.Web.SetCookie
import ObTools.Web.URL
import ObTools.Web.URLParts
import ObTools.Web.URLQuery
import ObTools.Web.WebSocket
import ObTools.XMLMesh.Correlator
import ObTools.XMLMesh.CorrelatorLemmas
import ObTools.XMLMesh.Publisher
import ObTools.XMLMesh.Replies
import ObTools.Xml.CharRefs
import ObTools.Xml.Complete
import ObTools.Xml.Configuration
import ObTools.Xml.Counterparts
import ObTools.Xml.DeleteLemmas
import ObTools.Xml.Element
import ObTools.Xml.EnsurePath
import ObTools.Xml.GetXpath
import ObTools.Xml.Heap
import ObTools.Xml.HeapLemmas
import ObTools.Xml.LoadLemmas
import ObTools.Xml.Namespaces
import ObTools.Xml.Parents
import ObTools.Xml.Parsed
import ObTools.Xml.Parser
import ObTools.Xml.ParserFrame
import ObTools.Xml.Paths
import ObTools.Xml.Reading
import ObTools.Xml.References
import ObTools.Xml.RoundTrip
import ObTools.Xml.Runs
import ObTools.Xml.Skipping
import ObTools.Xml.Steps
import ObTools.Xml.Stored
import ObTools.Xml.Superimpose
import ObTools.Xml.XPath
