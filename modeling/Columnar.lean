import Columnar.Form.Reading
import Columnar.Growable
import Columnar.Json.BufferedWriter
import Columnar.Json.Intake
import Columnar.Json.ValueText
import Columnar.Proofs.Batch
import Columnar.Proofs.Snapshot
import Columnar.Proofs.Column.Levels
import Columnar.Proofs.Column.Accepts
import Columnar.Proofs.Protocol
import Columnar.Proofs.Column.Runs
import Columnar.Proofs.Column.Row
import Columnar.Proofs.Column.Fill
import Columnar.Proofs.Column.Chosen
import Columnar.Proofs.Column.Grown
import Columnar.Proofs.FillOrder
import Columnar.Proofs.Json.Content
import Columnar.Proofs.Json.NumberParts
import Columnar.Proofs.Json.Spelling
import Columnar.Proofs.Json.Scan
import Columnar.Proofs.Json.Lex
import Columnar.Proofs.Json.Feed
import Columnar.Proofs.Extending
import Columnar.Proofs.Json.Number
import Columnar.Proofs.Json.Tree
import Columnar.Proofs.Json.Texts
import Columnar.Proofs.Json.Demand
import Columnar.Proofs.Ingestion
import Columnar.Proofs.Column.Widened
import Columnar.Proofs.Column.Replays
import Columnar.Proofs.Replay
import Columnar.Proofs.Form.Access
import Columnar.Proofs.Form.Checked
import Columnar.Proofs.Form.Describes
import Columnar.Proofs.Column.Reread
import Columnar.Proofs.Column.Room
import Columnar.Proofs.Admitted
import Columnar.Proofs.NormalForm
import Columnar.Proofs.Rounding
import Columnar.Proofs.Shortest
import Columnar.Proofs.Json.Numerals
import Columnar.Proofs.Json.Quotation
import Columnar.Proofs.Column.MapReals
import Columnar.Proofs.Json.Adds
import Columnar.Proofs.Json.Written
import Columnar.Proofs.Roundtrip
import Columnar.Proofs.Partitions
import Columnar.Proofs.Generalization
import Columnar.Proofs.Json.Places
import Columnar.Proofs.Json.Followed
import Columnar.Proofs.Interrupted
import Columnar.Proofs.Outage
import Columnar.Proofs.Handover
import Columnar.Proofs.Drafting
import Columnar.Proofs.Form.Documents
import Columnar.Proofs.Annotations
import Columnar.Proofs.Node.Runs
import Columnar.Proofs.Reparsed
import Columnar.Proofs.FieldSets
import Columnar.Proofs.Utf8Valid
import Columnar.Proofs.Json.ByteLoop
import Columnar.Proofs.Json.Escapes
import Columnar.Proofs.Json.Joined
import Columnar.Proofs.Json.Moved
import Columnar.Proofs.Successive
import Columnar.Proofs.Json.NumberRuns
import Columnar.Proofs.Time.Datetimes
import Columnar.Proofs.Column.Wrapped
import Columnar.Proofs.Growth
import Columnar.Proofs.Storage
import Columnar.Proofs.Json.Decided
import Columnar.Proofs.Json.Trimmed
