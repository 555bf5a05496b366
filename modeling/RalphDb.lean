import RalphDb.Base.Io
import RalphDb.Base.Text
import RalphDb.Base.Decimal
import RalphDb.Base.Interleave
import RalphDb.Protocol.Reads
import RalphDb.Protocol.Spelling
import RalphDb.Protocol.Caps
import RalphDb.Command.Execute
import RalphDb.Command.Expiry
import RalphDb.Concurrent.Counter
import RalphDb.Concurrent.Pieces
import RalphDb.Concurrent.Purge
import RalphDb.Command.Answers
import RalphDb.Command.Session
import RalphDb.Protocol.Request
import RalphDb.Command.Reply
import RalphDb.Server.Connection
import RalphDb.Server.Pipeline
import RalphDb.Server.Rejected
import RalphDb.Protocol.Grammar
import RalphDb.Protocol.Resend
import RalphDb.Protocol.Nesting
import RalphDb.Protocol.Inline
import RalphDb.Server.Config
import RalphDb.Command.Failure
import RalphDb.Server.Upgrade
import RalphDb.Concurrent.Deletion
import RalphDb.Concurrent.Mset
import RalphDb.Base.Loop
import RalphDb.Base.Wildcard
import RalphDb.Command.Pattern
import RalphDb.Command.Arity
import RalphDb.Server.Inline
import RalphDb.Server.Progress
import RalphDb.Concurrent.Linear
import RalphDb.Concurrent.Fresh
import RalphDb.Concurrent.Missing
import RalphDb.Concurrent.Expiring
import RalphDb.Server.Apart
import RalphDb.Server.Received
import RalphDb.Server.WaitFree
import RalphDb.Server.Drains
