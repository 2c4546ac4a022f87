import EZLanguage.Serializer.Prefix
import EZLanguage.VM.Coupling
import EZLanguage.VM.MethodFusion
import EZLanguage.VM.OperatorHandlers
import EZLanguage.GC.Safepoint
import EZLanguage.Compiler.BuiltinFolding
import EZLanguage.Compiler.IdentityReductions
import EZLanguage.Compiler.BranchPruning
import EZLanguage.GC.Soundness
import EZLanguage.VM.InlineCache
import EZLanguage.VM.CachedMethods
import EZLanguage.Compiler.CompileStmt
import EZLanguage.Compiler.OperandInvariant
import EZLanguage.Compiler.LocalSlots
import EZLanguage.Compiler.ScopedNames
import EZLanguage.VM.FieldWrites
import EZLanguage.Parser.ExprRoundTrip
import EZLanguage.Parser.UnbracedBodies
import EZLanguage.Runtime.Channel
import EZLanguage.Runtime.PermissionGrants
import EZLanguage.VM.StableSlots
import EZLanguage.Runtime.SpawnSnapshot
import EZLanguage.Runtime.JsonRoundTrip
import EZLanguage.Cli.StoppedInstall
import EZLanguage.Cli.Ownership
import EZLanguage.Runtime.SandboxRuns
import EZLanguage.Runtime.EZFuture
import EZLanguage.GC.Exactness
import EZLanguage.Runtime.NetHosts
import EZLanguage.Cli.VirtualFiles
import EZLanguage.Runtime.EventLoop
import EZLanguage.Runtime.ConcatString
import EZLanguage.Runtime.Teardown
import EZLanguage.Sqlite.Transaction
import EZLanguage.Sqlite.Migrate
import EZLanguage.Lexer.Totality
import EZLanguage.VM.NativeCallbacks
import EZLanguage.VM.IntegerArithmetic
import EZLanguage.VM.OneEquality
import EZLanguage.VM.RepeatLoop
import EZLanguage.VM.KeywordCalls
import EZLanguage.Runtime.CaseMapping
import EZLanguage.VM.StringCharacters
import EZLanguage.VM.RateLimit
import EZLanguage.Runtime.TimerStates
import EZLanguage.VM.Snapshots
import EZLanguage.Compiler.Disassembler
import EZLanguage.VM.InstanceLayout
import EZLanguage.Lexer.SourceLines
import EZLanguage.Lexer.StringLiterals
import EZLanguage.Runtime.Encoding
import EZLanguage.Runtime.CSV
import EZLanguage.Runtime.StringPieces
import EZLanguage.Runtime.StringSearch
import EZLanguage.Parser.EnumStatement
import EZLanguage.VM.Persistence
import EZLanguage.VM.SortOrder
import EZLanguage.TypeChecker.IsTerminal
import EZLanguage.Parser.RecursionDepth
import EZLanguage.Datetime.Arithmetic
import EZLanguage.Runtime.FfiBounds
import EZLanguage.Httpx.Headers
import EZLanguage.Runtime.RegexMatches
import EZLanguage.Runtime.RegexGuard
import EZLanguage.Runtime.StructLayout
import EZLanguage.Httpx.Query
import EZLanguage.Cli.Manifest
import EZLanguage.Datetime.IsoLaws
import EZLanguage.VM.NameDistance
import EZLanguage.Crypto.Pbkdf2
import EZLanguage.Testing.Suites
import EZLanguage.Sqlite.Script
import EZLanguage.Crypto.Text
import EZLanguage.Os.PathLaws
import EZLanguage.Email.MimeLaws
import EZLanguage.Stego.EncoderLaws
import EZLanguage.Cli.Dependencies
import EZLanguage.Os.Expand
import EZLanguage.Sqlite.Statement
import EZLanguage.Runtime.Mutex
import EZLanguage.Runtime.AwaitAny
