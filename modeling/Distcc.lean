import Distcc.Hosts.Sound
import Distcc.Hosts.Slots
import Distcc.Hosts.Shape
import Distcc.Client.Locks
import Distcc.Client.Fallback
import Distcc.Tmpnam
import Distcc.Header
import Distcc.Serve.RoundTrip
import Distcc.Serve.Allowlist
import Distcc.Serve.Upload
import Distcc.Access.Check
import Distcc.Gssapi
import Distcc.Stats.Process
import Distcc.Zeroconf.Exact
import Distcc.Signal
import Distcc.Dotd
import Distcc.Walkers
import Distcc.Compile
import Distcc.FixDebugInfo
import Distcc.Getline
import Distcc.Abspath
import Distcc.IncludeServer.ClientRoot
import Distcc.IncludeServer.UnionCache
import Distcc.IncludeServer.ResetTriggers
import Distcc.IncludeServer.Closure
import Distcc.IncludeServer.MacroObject
import Distcc.IncludeServer.ResolveExpr
import Distcc.IncludeServer.MacroCall
import Distcc.IncludeServer.MacroMono
import Distcc.IncludeServer.CoarseScan
import Distcc.IncludeServer.NormPath
import Distcc.IncludeServer.SystemDirs
import Distcc.IncludeServer.StatArrays
