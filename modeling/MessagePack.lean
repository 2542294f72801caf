import MessagePack.BigEndian
import MessagePack.BinaryFloat
import MessagePack.Buffer
import MessagePack.Calendar
import MessagePack.CompressedBlock
import MessagePack.Cursor
import MessagePack.Decimal.Shortest
import MessagePack.Deflate.Code
import MessagePack.Deflate.Compress
import MessagePack.Deflate.Inflate
import MessagePack.Deflate.Repetition
import MessagePack.Document
import MessagePack.DocumentError
import MessagePack.Format
import MessagePack.Frame
import MessagePack.Hash.Fnv
import MessagePack.Options
import MessagePack.Overwrite
import MessagePack.Pool
import MessagePack.Power
import MessagePack.Proofs.Agreement
import MessagePack.Proofs.Appends
import MessagePack.Proofs.Attempts
import MessagePack.Proofs.Bounds
import MessagePack.Proofs.Buffer
import MessagePack.Proofs.Checked
import MessagePack.Proofs.Command
import MessagePack.Proofs.CompressedBlock
import MessagePack.Proofs.Compression
import MessagePack.Proofs.Consumption
import MessagePack.Proofs.Contiguity
import MessagePack.Proofs.Cursor
import MessagePack.Proofs.Delivery
import MessagePack.Proofs.Depth
import MessagePack.Proofs.DepthBlind
import MessagePack.Proofs.DepthCount
import MessagePack.Proofs.DepthLimit
import MessagePack.Proofs.DuplicateKey
import MessagePack.Proofs.Encoding
import MessagePack.Proofs.Framing
import MessagePack.Proofs.Grammar
import MessagePack.Proofs.Header
import MessagePack.Proofs.Instant
import MessagePack.Proofs.Integer
import MessagePack.Proofs.KeyOrder
import MessagePack.Proofs.Lead
import MessagePack.Proofs.Locality
import MessagePack.Proofs.OldSpec
import MessagePack.Proofs.OldSpecReading
import MessagePack.Proofs.Operation
import MessagePack.Proofs.Outcome
import MessagePack.Proofs.Part
import MessagePack.Proofs.Payload
import MessagePack.Proofs.Place
import MessagePack.Proofs.Placing
import MessagePack.Proofs.PlainCursor
import MessagePack.Proofs.Pool
import MessagePack.Proofs.Reader
import MessagePack.Proofs.RoundTrip
import MessagePack.Proofs.Segmentation
import MessagePack.Proofs.Sink
import MessagePack.Proofs.SinkIndependence
import MessagePack.Proofs.Skip
import MessagePack.Proofs.Stable
import MessagePack.Proofs.StableSkip
import MessagePack.Proofs.StableToken
import MessagePack.Proofs.StableValue
import MessagePack.Proofs.Stream
import MessagePack.Proofs.Token
import MessagePack.Proofs.Truncation
import MessagePack.Proofs.Turn
import MessagePack.Proofs.TypedRoundTrip
import MessagePack.Proofs.Value
import MessagePack.Proofs.View
import MessagePack.Proofs.Writer
import MessagePack.ReadError
import MessagePack.Reader
import MessagePack.Reader.Skip
import MessagePack.Schema
import MessagePack.Schema.Codec
import MessagePack.Schema.Dynamic
import MessagePack.Security
import MessagePack.Segments
import MessagePack.Session
import MessagePack.Sink
import MessagePack.StreamReader
import MessagePack.Text.Hexadecimal
import MessagePack.Text.Printable
import MessagePack.Text.Quoted
import MessagePack.Text.Utf8
import MessagePack.Timestamp
import MessagePack.Token
import MessagePack.Turn
import MessagePack.Uuid
import MessagePack.Value
import MessagePack.Value.Codec
import MessagePack.Value.Render
import MessagePack.View
import MessagePack.Writer
