import Invocation.AppDBRoundTrip
import Invocation.Permission
import Invocation.ConnectionSafety
import Invocation.LockFile
import Invocation.RunOptions
import Invocation.AppDBLine
import Invocation.Lib.Runs
import Invocation.AppDBHistory
import Invocation.Config
import Invocation.Expect
import Invocation.Lib.Process
import Invocation.Substitute
import Invocation.Auth
import Invocation.Server
import Invocation.Privileges
import Invocation.Client
import Invocation.Upload
import Invocation.Replay
import Invocation.Lib.Files
import Invocation.Lib.Rewrite
import Invocation.Bookin
import Invocation.ConcurrentBookin
import Invocation.ConcurrentAdd
import Invocation.Dialogue
import Invocation.Traces
import Invocation.Deadlock
import Invocation.Resume
import Invocation.Lib.Shell
import Invocation.ShellSafety
import Invocation.Request
import Invocation.Credentials
import Invocation.Rules
import Invocation.Lib.Pieces
import Invocation.Membership
import Invocation.Template
import Invocation.Lib.ShellWords
import Invocation.ArgLength
import Invocation.ConfigParser
import Invocation.ConfigLayout
import Invocation.ConfigReading
import Invocation.ConfigAdditions
import Invocation.NodeKinds
import Invocation.Password
import Invocation.RequestValues
import Invocation.QuotedRequest
import Invocation.Positional
import Invocation.Bookout
import Invocation.ExpectDialogs
import Invocation.ExpectBlocks
import Invocation.AppDBVerdict
import Invocation.FailedAdd
import Invocation.Lib.Recursion
import Invocation.Termination
import Invocation.Lib.Window
import Invocation.Stream
import Invocation.StreamOutput
import Invocation.Lib.Schedules
import Invocation.Schedules
import Invocation.Delivery
import Invocation.Lib.Readers
import Invocation.ConcurrentCheck
import Invocation.Lib.BlockHash
import Invocation.Lib.Sha2
import Invocation.Sha256
import Invocation.Digest
import Invocation.Base64
import Invocation.HashFile
import Invocation.PamHandles
import Invocation.Lib.Blocks
import Invocation.Lib.SlotCache
import Invocation.StrLenCache
import Invocation.Strings
import Invocation.StringRuns
import Invocation.GrantCommand
import Invocation.StreamOpen
import Invocation.Growth
import Invocation.InvokeVerdict
