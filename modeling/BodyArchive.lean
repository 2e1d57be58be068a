import BodyArchive.Io.Stream
import BodyArchive.Io.Write
import BodyArchive.Data.Hex
import BodyArchive.Http.Header
import BodyArchive.Body.History
import BodyArchive.Body.Exact
import BodyArchive.Body.Limits
import BodyArchive.Body.Intake
import BodyArchive.Body.Appends
import BodyArchive.Futio.Encodings
import BodyArchive.Barc.Concurrent
import BodyArchive.Barc.Failures
import BodyArchive.Barc.Hostile
import BodyArchive.Barc.Blocks
import BodyArchive.Barc.Convert
import BodyArchive.Barc.Dialogs
import BodyArchive.Cli.Offsets
import BodyArchive.Futio.Discipline
import BodyArchive.Futio.Access
import BodyArchive.Futio.Buf
import BodyArchive.Barc.HeadFormat
import BodyArchive.Barc.Truncation
import BodyArchive.Barc.Strategy
import BodyArchive.Barc.Lock
import BodyArchive.Cli.Live
import BodyArchive.Cli.Compress
import BodyArchive.Cli.Record
