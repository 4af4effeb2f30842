import Khorost.Lib.Bytes
import Khorost.Lib.Blocks
import Khorost.Lib.Incremental
import Khorost.Lib.Maps
import Khorost.Lib.TwoKey
import Khorost.Lib.Table
import Khorost.Lib.Quoted
import Khorost.Lib.Scan
import Khorost.Lib.Throwing
import Khorost.Util.CString
import Khorost.Util.RawBuffer
import Khorost.Net.Connection
import Khorost.Net.CompactBinary
import Khorost.Net.Session
import Khorost.App.HttpConnection
import Khorost.App.Server2hbNp
import Khorost.App.Tokens
import Khorost.App.S2hSession
import Khorost.Net.MultiPart
import Khorost.Proofs.Boundaries
import Khorost.Proofs.FormData
import Khorost.Proofs.LineLoop
import Khorost.Unicode.Transform
import Khorost.Proofs.Utf8
import Khorost.Lib.Custody
import Khorost.Lib.Lines
import Khorost.Net.Response
import Khorost.Net.Accessors
import Khorost.Lib.Paths
import Khorost.Net.SendFile
import Khorost.App.HttpTask
import Khorost.Db.Postgres
import Khorost.Proofs.Pool
import Khorost.Proofs.Closing
import Khorost.Proofs.Echoes
import Khorost.Proofs.ResponseHead
import Khorost.Proofs.DocRoot
import Khorost.Proofs.Packets
import Khorost.Proofs.Received
import Khorost.Proofs.BufferOps
import Khorost.Proofs.Chunks
import Khorost.Proofs.Passes
import Khorost.Proofs.Skipped
import Khorost.Proofs.Delivered
import Khorost.Proofs.Arrays
import Khorost.Proofs.RoundTrip
import Khorost.Proofs.Arrivals
import Khorost.Proofs.EmptyBody
import Khorost.Proofs.Reached
import Khorost.Proofs.Locality
import Khorost.Proofs.TokenSteps
import Khorost.Proofs.TokenKinds
import Khorost.Proofs.Revocation
import Khorost.Proofs.TokenIndex
import Khorost.Proofs.FailedRefresh
import Khorost.Proofs.Sessions
import Khorost.Proofs.Restart
import Khorost.Proofs.Announced
import Khorost.Proofs.PairLists
import Khorost.Proofs.Reading
import Khorost.Proofs.Heads
import Khorost.Proofs.BodyLength
import Khorost.Proofs.FormMerge
import Khorost.Proofs.ValueRange
import Khorost.Proofs.ParamNames
import Khorost.Proofs.OpenLines
import Khorost.Proofs.LineKeys
import Khorost.Proofs.Grounded
import Khorost.Lib.Drain
import Khorost.Net.Mail
import Khorost.Proofs.Payload
import Khorost.System.FastFile
import Khorost.Proofs.Mapped
import Khorost.Lib.Streak
import Khorost.Proofs.CheckConnect
import Khorost.Db.MySql
import Khorost.Proofs.Tries
import Khorost.Lib.SqlLiteral
import Khorost.Proofs.Capacity
import Khorost.Proofs.QueryText
import Khorost.Proofs.Literals
import Khorost.Lib.Substitution
import Khorost.Proofs.Bindings
import Khorost.Lib.Replacing
import Khorost.Proofs.ReplaceAll
import Khorost.Lib.PercentCode
import Khorost.Net.CurlString
import Khorost.Proofs.UriEncode
import Khorost.Proofs.Modified
import Khorost.Proofs.HeaderCase
import Khorost.Db.LinkedPostgres
import Khorost.Proofs.HexText
import Khorost.Util.StdString
import Khorost.Net.Stomp
import Khorost.Proofs.StompFrames
import Khorost.Lib.LiteralRules
import Khorost.Proofs.TokenLiteral
import Khorost.Util.JsonValue
import Khorost.App.Config
import Khorost.Proofs.ConfigPaths
import Khorost.Net.SessionUse
import Khorost.Proofs.IdleGaps
import Khorost.App.SessionText
import Khorost.Proofs.SessionImport
import Khorost.Proofs.SessionObjects
import Khorost.Proofs.TextRestart
import Khorost.System.Disk
import Khorost.Proofs.Backing
import Khorost.Proofs.PasswordChange
import Khorost.Proofs.Lifetimes
import Khorost.Proofs.StompBounds
import Khorost.Proofs.Overlong
import Khorost.Proofs.FirstMatch
import Khorost.Proofs.Growing
import Khorost.Proofs.HostPort
import Khorost.Proofs.ClientText
import Khorost.Util.HtmlTags
import Khorost.Proofs.ChunkCalls
import Khorost.Proofs.PairOffsets
import Khorost.Proofs.TreeWalk
import Khorost.Proofs.RootSpelling
import Khorost.App.S2hbStorage
import Khorost.Proofs.Accounts
import Khorost.App.Server2hb
import Khorost.Lib.Messages
import Khorost.Proofs.ResponseStream
import Khorost.Proofs.MethodText
import Khorost.Proofs.HbRequests
import Khorost.Proofs.HbResponses
import Khorost.Lib.Journal
import Khorost.Proofs.Authentication
import Khorost.App.HttpController
import Khorost.Proofs.LoggedIn
import Khorost.Util.I18n
import Khorost.Db.KhlPostgres
import Khorost.Proofs.Translations
import Khorost.Db.TokenRows
import Khorost.Proofs.TokenRows
import Khorost.Proofs.TokenGrants
import Khorost.Lib.Latest
import Khorost.Proofs.CookieJar
import Khorost.Proofs.Taken
import Khorost.Proofs.Exchanges
import Khorost.Proofs.LoginCookie
