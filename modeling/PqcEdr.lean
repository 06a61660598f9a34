import PqcEdr.Lib.Lists
import PqcEdr.Lib.AssocMap
import PqcEdr.Lib.Recency
import PqcEdr.Lib.Tally
import PqcEdr.Lib.FileSystem
import PqcEdr.Lib.OrdSet
import PqcEdr.Lib.BigEndian
import PqcEdr.Lib.Method
import PqcEdr.Lib.Process
import PqcEdr.Lib.Transport
import PqcEdr.Lib.Dialogue
import PqcEdr.Lib.Delimiter
import PqcEdr.Lib.TextInput
import PqcEdr.Lib.Utf8
import PqcEdr.Lib.Utf8Table
import PqcEdr.Lib.Budget
import PqcEdr.Lib.BoundedRead
import PqcEdr.Event
import PqcEdr.Printf
import PqcEdr.Crypto.Exn
import PqcEdr.Crypto.Wire
import PqcEdr.Crypto.Codec
import PqcEdr.Crypto.Session
import PqcEdr.Crypto.Primitives
import PqcEdr.Crypto.Record
import PqcEdr.Crypto.Nonce
import PqcEdr.Crypto.Socket
import PqcEdr.Crypto.Stream
import PqcEdr.Crypto.Framing
import PqcEdr.Crypto.Handshake
import PqcEdr.Crypto.Conn
import PqcEdr.Crypto.Network
import PqcEdr.Crypto.Transcript
import PqcEdr.Crypto.Honest
import PqcEdr.Crypto.Provision
import PqcEdr.Agent.ChannelSink
import PqcEdr.Agent.Delivery
import PqcEdr.Agent.Drops
import PqcEdr.Agent.Hooks
import PqcEdr.Agent.Sources
import PqcEdr.Agent.Collector
import PqcEdr.EventsFile.Format
import PqcEdr.EventsFile.Fields
import PqcEdr.EventsFile.Line
import PqcEdr.EventsFile.Reading
import PqcEdr.EventsFile.RoundTrip
import PqcEdr.EventsFile.Grammar
import PqcEdr.EventsFile.Delivered
import PqcEdr.Agent.RecordSink
import PqcEdr.Analyzer.Prefilter
import PqcEdr.Analyzer.Rules
import PqcEdr.Analyzer.Correlator
import PqcEdr.Analyzer.Pipeline
import PqcEdr.Analyzer.Override
import PqcEdr.Analyzer.Staging
import PqcEdr.Analyzer.LogLines
import PqcEdr.Analyzer.Prompt
import PqcEdr.Analyzer.Sanitize
import PqcEdr.Analyzer.Memo
import PqcEdr.Analyzer.Json
import PqcEdr.Analyzer.Claude
import PqcEdr.Analyzer.JsonString
import PqcEdr.Analyzer.Alert
import PqcEdr.Analyzer.Steps
import PqcEdr.Analyzer.Coverage
import PqcEdr.Analyzer.Chains
import PqcEdr.Analyzer.Beacon
import PqcEdr.Analyzer.Clock
import PqcEdr.Analyzer.Bounds
import PqcEdr.Analyzer.Sweep
import PqcEdr.Analyzer.FieldReads
import PqcEdr.Analyzer.FieldBounds
import PqcEdr.Analyzer.Retiming
import PqcEdr.Analyzer.Replay
import PqcEdr.Analyzer.Windows
import PqcEdr.Analyzer.Daemon
import PqcEdr.Analyzer.EndToEnd
import PqcEdr.Analyzer.Defined
import PqcEdr.Analyzer.Detected
import PqcEdr.Analyzer.Losses
import PqcEdr.Analyzer.Eval
import PqcEdr.Analyzer.EvalMemo
